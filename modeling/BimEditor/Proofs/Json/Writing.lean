/-
  BimEditor.Proofs.Json.Writing

  The compact text of a value derives the value (`derives_compact`), and so it is read back as that
  value, if no object has two members of one name: the reader keeps the last of them, the writer
  writes all (`read_compact`).
-/
import BimEditor.Json.Record
import BimEditor.Json.Writer
import BimEditor.Proofs.Json.Acceptance
import BimEditor.Proofs.Json.NumberWriting

namespace BimEditor.Json

open BimEditor.Text

/-! ## Strings -/

theorem hexDigit_lower : ∀ n < 16, lowerHexDigits[n]? = some (hexDigit n) := by
  decide

/-- A control character is written by its code. -/
theorem hexCode_control {n : Nat} (h : n < 0x20) :
    HexCode ['0', '0', hexDigit (n / 16), hexDigit (n % 16)] n := by
  have hzero : HexDigit '0' 0 := .inl rfl
  have hcode := HexCode.digits hzero hzero (.inl (hexDigit_lower (n / 16) (by omega)))
    (.inl (hexDigit_lower (n % 16) (by omega)))
  have hn : ((0 * 16 + 0) * 16 + n / 16) * 16 + n % 16 = n := by omega
  rwa [hn] at hcode

/-- What is written for a character stands for it. -/
theorem character_escapeChar (c : Char) : Character (escapeChar c) c := by
  unfold escapeChar
  split_ifs with hquote hback hb hf hn hr ht hcontrol
  · subst hquote
    exact .letter (by decide)
  · subst hback
    exact .letter (by decide)
  · subst hb
    exact .letter (by decide)
  · subst hf
    exact .letter (by decide)
  · subst hn
    exact .letter (by decide)
  · subst hr
    exact .letter (by decide)
  · subst ht
    exact .letter (by decide)
  -- the letters cover seven characters; the other control characters are written by their code
  · exact .code (hexCode_control hcontrol)
  · exact .plain (Nat.le_of_not_lt hcontrol) hquote hback

theorem characters_escaped (cs : List Char) : Characters (cs.flatMap escapeChar) cs := by
  induction cs with
  | nil => exact .nil
  | cons c cs ih => exact .cons (character_escapeChar c) ih

theorem scalarText_quoted (s : String) : ScalarText Denotes (quoted s) (.string s) := by
  have h := @ScalarText.string Denotes _ _ (characters_escaped s.toList)
  rwa [String.ofList_toList] at h

/-! ## Values -/

theorem scalarText_text (x : Scalar) : ScalarText Denotes x.text x := by
  cases x with
  | null => exact .nullWord
  | bool b =>
    cases b with
    | true => exact .trueWord
    | false => exact .falseWord
  | number x =>
    obtain ⟨n, hspells, hdenotes⟩ := number_text_spells x
    exact .number hspells hdenotes
  | string s => exact scalarText_quoted s

mutual
/-- The compact text of a value derives the value. -/
theorem derives_compact : (v : Value) → Derives Denotes v.compact (.value v)
  | .scalar x => .scalar (scalarText_text x)
  | .array [] => .emptyArray blanks_nil
  | .array (v :: vs) => .array blanks_nil (derives_compactItems (v :: vs) (List.cons_ne_nil v vs))
  | .object [] => .emptyObject blanks_nil
  | .object (m :: ms) =>
    .object blanks_nil (derives_compactMembers (m :: ms) (List.cons_ne_nil m ms))

theorem derives_compactItems :
    (vs : List Value) → vs ≠ [] → Derives Denotes (Value.compactItems vs) (.items vs)
  | [], h => absurd rfl h
  | [v], _ => by
    have hlast := Derives.lastItem (derives_compact v) blanks_nil
    rwa [List.append_nil] at hlast
  | v :: w :: vs, _ =>
    .item (derives_compact v) blanks_nil blanks_nil
      (derives_compactItems (w :: vs) (List.cons_ne_nil w vs))

theorem derives_compactMembers :
    (ms : List (String × Value)) → ms ≠ [] → Derives Denotes (Value.compactMembers ms) (.members ms)
  | [], h => absurd rfl h
  | [(k, v)], _ => by
    have hlast := Derives.lastMember (characters_escaped k.toList) blanks_nil blanks_nil
      (derives_compact v) blanks_nil
    rw [String.ofList_toList] at hlast
    simpa [Value.compactMembers, quoted] using hlast
  | (k, v) :: m :: ms, _ => by
    have hmember := Derives.member (characters_escaped k.toList) blanks_nil blanks_nil
      (derives_compact v) blanks_nil blanks_nil
      (derives_compactMembers (m :: ms) (List.cons_ne_nil m ms))
    rw [String.ofList_toList] at hmember
    simpa [Value.compactMembers, quoted] using hmember
end

/-! ## Members of distinct names -/

namespace Value

mutual
/-- No object inside of the value has two members of one name. -/
def Distinct : Value → Prop
  | .scalar _ => True
  | .array items => ItemsDistinct items
  | .object members => (Keyed.names members).Nodup ∧ MembersDistinct members

/-- The same for all items. -/
def ItemsDistinct : List Value → Prop
  | [] => True
  | v :: vs => Distinct v ∧ ItemsDistinct vs

/-- The same for the values of all members. -/
def MembersDistinct : List (String × Value) → Prop
  | [] => True
  | (_, v) :: ms => Distinct v ∧ MembersDistinct ms
end

theorem itemsDistinct_iff {items : List Value} :
    ItemsDistinct items ↔ ∀ v ∈ items, v.Distinct := by
  induction items with
  | nil => simp [ItemsDistinct]
  | cons v items ih => simp [ItemsDistinct, ih]

theorem membersDistinct_iff {members : List (String × Value)} :
    MembersDistinct members ↔ ∀ m ∈ members, m.2.Distinct := by
  induction members with
  | nil => simp [MembersDistinct]
  | cons m members ih => simp [MembersDistinct, ih]

theorem names_optionalMember_sublist (name : String) (v : Option Value) :
    (Keyed.names (optionalMember name v)).Sublist [name] := by
  cases v with
  | none => exact List.nil_sublist _
  | some w => exact List.Sublist.refl _

theorem distinct_of_mem_optionalMember {name : String} {v : Option Value} {m : String × Value}
    (hv : ∀ w ∈ v, w.Distinct) (hm : m ∈ optionalMember name v) : m.2.Distinct := by
  cases v with
  | none => cases hm
  | some w =>
    obtain rfl := List.mem_singleton.1 hm
    exact hv w rfl

theorem distinct_stringArray (strings : List String) : (stringArray strings).Distinct := by
  refine itemsDistinct_iff.2 ?_
  intro v hv
  obtain ⟨s, -, rfl⟩ := List.mem_map.1 hv
  exact trivial

/-- An object with one member. -/
theorem distinct_singleton {name : String} {w : Value} (hw : w.Distinct) :
    (Value.object [(name, w)]).Distinct :=
  ⟨List.nodup_singleton name, hw, trivial⟩

end Value

namespace Keyed

variable {α : Type}

/-- A new name is put behind all others. -/
theorem put_of_not_mem {name : String} {entries : Keyed α} (value : α)
    (h : name ∉ entries.names) : entries.put name value = entries ++ [(name, value)] := by
  induction entries with
  | nil => rfl
  | cons entry rest ih =>
    rw [names, List.map_cons, List.mem_cons, not_or] at h
    rw [put, if_neg (Ne.symm h.1), ih h.2, List.cons_append]

/-- Entries of distinct names are collected as they are. -/
theorem collect_of_nodup {entries : Keyed α} (h : entries.names.Nodup) :
    collect entries = entries := by
  -- what is still to come has names that what was collected does not have
  have hfold : ∀ (rest done : Keyed α), (names done ++ names rest).Nodup →
      rest.foldl (fun done entry => put entry.1 entry.2 done) done = done ++ rest := by
    intro rest
    induction rest with
    | nil =>
      intro done _
      exact (List.append_nil done).symm
    | cons entry rest ih =>
      intro done hnodup
      have hnew : entry.1 ∉ names done := by
        intro hmem
        exact (List.nodup_append.1 hnodup).2.2 entry.1 hmem entry.1 List.mem_cons_self rfl
      rw [List.foldl_cons, put_of_not_mem entry.2 hnew, ih, List.append_assoc,
        List.singleton_append]
      simpa [names] using hnodup
  exact hfold entries [] h

end Keyed

namespace Tree

mutual
/-- Where all names are distinct, the reader's plain value lists every member. -/
theorem toValue_of_distinct : (t : Tree) → t.plain.Distinct → t.toValue = t.plain
  | .leaf _ _, _ => rfl
  | .array _ items, h => congrArg Value.array (itemValues_of_distinct items h)
  | .object _ members, h => by
    have hnames := h.1
    rw [toValue, memberValues_of_distinct members h.2, plain, Keyed.collect_of_nodup hnames]

theorem itemValues_of_distinct :
    (ts : List Tree) → Value.ItemsDistinct (plainItems ts) → itemValues ts = plainItems ts
  | [], _ => rfl
  | t :: ts, h => by
    rw [itemValues, toValue_of_distinct t h.1, itemValues_of_distinct ts h.2, plainItems]

theorem memberValues_of_distinct : (ms : List (Key × Tree)) →
    Value.MembersDistinct (plainMembers ms) → memberValues ms = plainMembers ms
  | [], _ => rfl
  | (k, t) :: ms, h => by
    rw [memberValues, toValue_of_distinct t h.1, memberValues_of_distinct ms h.2, plainMembers]
end

end Tree

/-- The compact text of a value, within the limits, is read as a tree of that value. -/
theorem read_compact {limits : Limits} {v : Value}
    (hsize : WithinLimit limits.maxSize (byteLength v.compact))
    (hdepth : WithinLimit limits.maxDepth v.depth) :
    ∃ t, read limits v.compact = .ok t ∧ t.plain = v := by
  have hderives : DerivesText Denotes v.compact v :=
    ⟨[], v.compact, [], by simp, blanks_nil, derives_compact v, blanks_nil⟩
  exact read_of_derivesText hderives hsize hdepth

end BimEditor.Json
