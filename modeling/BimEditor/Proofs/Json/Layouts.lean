/-
  BimEditor.Proofs.Json.Layouts

  Both layouts of a value are read back as the value. The compact one is a text of the grammar
  without any blank; in the pretty one each item and each member starts a line of its own, so that
  blanks stand before it and before the bracket that closes the list (`derives_prettyAt`). What is
  read has the members of the value in their order, if no object has two members of one name
  (`read_layout`).
-/
import BimEditor.Proofs.Json.Writing

namespace BimEditor.Json

open BimEditor.Text

/-! ## The pretty layout -/

/-- A new line and its indentation are blanks. -/
theorem blanks_newLine (level : Nat) : Blanks (Value.newLine level) := by
  intro c hc
  rcases List.mem_cons.1 hc with rfl | hc
  · exact .inr (.inr (.inl rfl))
  · exact .inl (List.eq_of_mem_replicate hc)

theorem blanks_space : Blanks [' '] := by
  simp [Blanks]

mutual
/-- The pretty text of a value derives the value, at any level of indentation. -/
theorem derives_prettyAt : (v : Value) → (level : Nat) →
    Derives Denotes (v.prettyAt level) (.value v)
  | .scalar x, _ => .scalar (scalarText_text x)
  | .array [], _ => .emptyArray blanks_nil
  | .array (v :: vs), level => by
    obtain ⟨s, hs, hitems⟩ := derives_prettyItems (v :: vs) (List.cons_ne_nil v vs) (level + 1)
      (blanks_newLine level)
    have harray := Derives.array (blanks_newLine (level + 1)) hitems
    rw [← List.append_assoc, ← hs] at harray
    exact harray
  | .object [], _ => .emptyObject blanks_nil
  | .object (m :: ms), level => by
    obtain ⟨s, hs, hmembers⟩ := derives_prettyMembers (m :: ms) (List.cons_ne_nil m ms) (level + 1)
      (blanks_newLine level)
    have hobject := Derives.object (blanks_newLine (level + 1)) hmembers
    rw [← List.append_assoc, ← hs] at hobject
    exact hobject

-- the grammar lets no item start with a blank: the first line break belongs to the bracket before
-- the items, each other one to the comma, and the blanks `b` behind the last item to that item
theorem derives_prettyItems : (vs : List Value) → vs ≠ [] → (level : Nat) → {b : List Char} →
    Blanks b → ∃ s, Value.prettyItems level vs ++ b = Value.newLine level ++ s
      ∧ Derives Denotes s (.items vs)
  | [], h, _, _, _ => absurd rfl h
  | [v], _, level, b, hb => by
    refine ⟨v.prettyAt level ++ b, ?_, .lastItem (derives_prettyAt v level) hb⟩
    rw [Value.prettyItems, List.append_assoc]
  | v :: w :: vs, _, level, b, hb => by
    obtain ⟨s, hs, hitems⟩ := derives_prettyItems (w :: vs) (List.cons_ne_nil w vs) level hb
    refine ⟨_, ?_, .item (derives_prettyAt v level) blanks_nil (blanks_newLine level) hitems⟩
    rw [Value.prettyItems, ← hs]
    · simp
    · exact List.cons_ne_nil w vs

theorem derives_prettyMembers : (ms : List (String × Value)) → ms ≠ [] → (level : Nat) →
    {b : List Char} → Blanks b → ∃ s, Value.prettyMembers level ms ++ b = Value.newLine level ++ s
      ∧ Derives Denotes s (.members ms)
  | [], h, _, _, _ => absurd rfl h
  | [(k, v)], _, level, b, hb => by
    have hmember := Derives.lastMember (characters_escaped k.toList) blanks_nil blanks_space
      (derives_prettyAt v level) hb
    rw [String.ofList_toList] at hmember
    refine ⟨_, ?_, hmember⟩
    simp [Value.prettyMembers, quoted]
  | (k, v) :: m :: ms, _, level, b, hb => by
    obtain ⟨s, hs, hmembers⟩ := derives_prettyMembers (m :: ms) (List.cons_ne_nil m ms) level hb
    have hmember := Derives.member (characters_escaped k.toList) blanks_nil blanks_space
      (derives_prettyAt v level) blanks_nil (blanks_newLine level) hmembers
    rw [String.ofList_toList] at hmember
    refine ⟨_, ?_, hmember⟩
    rw [Value.prettyMembers, ← hs]
    · simp [quoted]
    · exact List.cons_ne_nil m ms
end

/-! ## Either layout -/

/-- The two texts that a value is written as. -/
def Value.layouts (v : Value) : List (List Char) :=
  [v.compact, v.pretty]

theorem derives_layout {v : Value} {s : List Char} (hs : s ∈ v.layouts) :
    Derives Denotes s (.value v) := by
  simp only [Value.layouts, List.mem_cons, List.not_mem_nil, or_false] at hs
  rcases hs with rfl | rfl
  · exact derives_compact v
  · exact derives_prettyAt v 0

/-- In either layout and under any limits that allow its size and its depth, a value without
    repeated names is read back: the tree that is read has that plain value, with all items and
    members in their order. -/
theorem read_layout {limits : Limits} {v : Value} (hdistinct : v.Distinct) {s : List Char}
    (hs : s ∈ v.layouts) (hsize : WithinLimit limits.maxSize (byteLength s))
    (hdepth : WithinLimit limits.maxDepth v.depth) :
    ∃ t, read limits s = .ok t ∧ t.toValue = v := by
  have hderives : DerivesText Denotes s v :=
    ⟨[], s, [], by simp, blanks_nil, derives_layout hs, blanks_nil⟩
  obtain ⟨t, hread, hplain⟩ := read_of_derivesText hderives hsize hdepth
  -- a repeated name is the only thing that the plain value of a tree does not keep
  have hvalue : t.toValue = t.plain := by
    apply t.toValue_of_distinct
    rw [hplain]
    exact hdistinct
  exact ⟨t, hread, hvalue.trans hplain⟩

/-- Names and strings with a quote, a backslash, control characters and a character of four bytes;
    the least and the greatest integer; an empty object. -/
def Value.awkward : Value :=
  .object [("\"\\\x01😀", .array [.number (.integer ⟨-9223372036854775808, by decide⟩),
      .number (.integer ⟨18446744073709551615, by decide⟩), .string "\t\x7f\x00é", .object []]),
    ("", .null), ("/", .array [.bool true, .array [.bool false]])]

theorem read_layout_awkward :
    (∃ t, read .standard Value.awkward.compact = .ok t ∧ t.toValue = Value.awkward)
      ∧ ∃ t, read .standard Value.awkward.pretty = .ok t ∧ t.toValue = Value.awkward := by
  have hdistinct : Value.awkward.Distinct := by
    simp [Value.awkward, Value.Distinct, Value.ItemsDistinct, Value.MembersDistinct, Keyed.names]
  refine ⟨read_layout hdistinct (.head _) ?_ ?_, read_layout hdistinct (.tail _ (.head _)) ?_ ?_⟩
    <;> (rintro most hmost; obtain rfl := Option.some.inj hmost; decide +kernel)

end BimEditor.Json
