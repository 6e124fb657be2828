/-
  BimEditor.Proofs.Json.Reading

  The reader of values against the located grammar. What it reads has the spans that the grammar
  gives it and nests no deeper than allowed (`treeEnsures`); and what the grammar locates is read,
  if it nests no deeper than allowed and no number goes on behind it (`Located.yields`). For whole
  texts the two meet in `readBy_eq_ok_iff`.

  The first direction follows the recursion of the reader, the second that of the grammar.
-/
import BimEditor.Json.Reader
import BimEditor.Proofs.Json.Located
import BimEditor.Proofs.Json.NumberText
import BimEditor.Proofs.Json.StringText

namespace BimEditor.Json

open BimEditor.Numeric BimEditor.Text

/-! ## Blanks -/

theorem blanks_iff {s : List Char} : Blanks s ↔ ∀ x ∈ s, isJsonBlank x = true := by
  simp [Blanks, isJsonBlank, or_assoc]

theorem blanks_nil : Blanks [] := by
  simp [Blanks]

theorem passes_skipBlanks (c : Cursor) : ∃ b, c.Passes b c.skipBlanks ∧ Blanks b := by
  refine ⟨_, Cursor.passes_skip isJsonBlank c, blanks_iff.2 ?_⟩
  intro x hx
  exact List.all_eq_true.1 List.all_takeWhile x hx

theorem skipBlanks_append {o : Nat} {b s : List Char} (hb : Blanks b)
    (hs : Cursor.StopsAt isJsonBlank s) :
    Cursor.skipBlanks ⟨o, b ++ s⟩ = ⟨o + byteLength b, s⟩ :=
  Cursor.skip_append (blanks_iff.1 hb) hs

/-- Blanks are skipped up to the first character that is none. -/
theorem skipBlanks_mark {o : Nat} {b : List Char} {x : Char} (rest : List Char) (hb : Blanks b)
    (hx : isJsonBlank x = false) :
    Cursor.skipBlanks ⟨o, b ++ x :: rest⟩ = ⟨o + byteLength b, x :: rest⟩ :=
  skipBlanks_append hb ((Cursor.stopsAt_cons isJsonBlank x rest).2 hx)

/-- No number goes on in blanks with a closing or separating mark behind them. -/
theorem ended_blanks {b s : List Char} (hb : Blanks b) (hs : Ended s) : Ended (b ++ s) := by
  cases b with
  | nil => exact hs
  | cons x b =>
    refine (Cursor.stopsAt_cons extendsNumber x (b ++ s)).2 ?_
    rcases hb x List.mem_cons_self with rfl | rfl | rfl | rfl <;> rfl

/-! ## Punctuation -/

theorem colon_ensures (c : Cursor) :
    Ensures (fun r => c.Passes [':'] r.next) Fault.IsMalformed (colon c) := by
  unfold colon
  split
  · exact .ok ((Cursor.Passes.refl _).byte rfl)
  · exact .error trivial

theorem memberEnd_ensures (c : Cursor) :
    Ensures (fun r => c.Passes [if r.value then ',' else '}'] r.next) Fault.IsMalformed
      (memberEnd c) := by
  unfold memberEnd
  split
  · exact .ok ((Cursor.Passes.refl _).byte rfl)
  · exact .ok ((Cursor.Passes.refl _).byte rfl)
  · exact .error trivial

theorem itemEnd_ensures (c : Cursor) :
    Ensures (fun r => c.Passes [if r.value then ',' else ']'] r.next) Fault.IsMalformed
      (itemEnd c) := by
  unfold itemEnd
  split
  · exact .ok ((Cursor.Passes.refl _).byte rfl)
  · exact .ok ((Cursor.Passes.refl _).byte rfl)
  · exact .error trivial

/-! ## Scalars -/

/-- What numbers stand for under a rule. -/
def ByRule (value? : Numeral → Option Number) (n : Numeral) (x : Number) : Prop :=
  value? n = some x

theorem scalar_ensures (value? : Numeral → Option Number) (c : Cursor) :
    Ensures (fun r => ∃ s, c.Passes s r.next ∧ ScalarText (ByRule value?) s r.value)
      Fault.IsMalformed (scalar value? c) := by
  unfold scalar
  split
  · next here rest =>
    refine (stringBody_ensures here _).bind ?_
    rintro ⟨cs, next, h⟩ ⟨s, hpass, hcs⟩
    exact .ok ⟨'"' :: (s ++ ['"']), hpass.byte rfl, .string hcs⟩
  · next here rest =>
    refine (word_ensures "true" (.bool true) _).mono ?_ fun _ he => he
    rintro ⟨x, next, h⟩ ⟨hpass, rfl⟩
    exact ⟨_, hpass, .trueWord⟩
  · next here rest =>
    refine (word_ensures "false" (.bool false) _).mono ?_ fun _ he => he
    rintro ⟨x, next, h⟩ ⟨hpass, rfl⟩
    exact ⟨_, hpass, .falseWord⟩
  · next here rest =>
    refine (word_ensures "null" .null _).mono ?_ fun _ he => he
    rintro ⟨x, next, h⟩ ⟨hpass, rfl⟩
    exact ⟨_, hpass, .nullWord⟩
  · next here x rest _ _ _ _ =>
    split
    · refine (number_ensures value? _).bind ?_
      rintro ⟨n, next, h⟩ ⟨s, spelled, hpass, hspells, hn⟩
      exact .ok ⟨s, hpass, .number hspells hn⟩
    · exact .error trivial
  · exact .error trivial

theorem Spells.head {s : List Char} {n : Numeral} (h : Spells s n) :
    ∃ d t, s = d :: t ∧ (d = '-' ∨ isDigit d = true) := by
  cases h with
  | @parts negative w f e _ _ hw hf he =>
    cases negative with
    | true => exact ⟨'-', _, rfl, .inl rfl⟩
    | false =>
      obtain ⟨d, ds, rfl, hd⟩ := hw.head
      exact ⟨d, _, rfl, .inr hd⟩

/-- A value that has a mark at its end, or is a word, is read whatever follows it. -/
theorem scalar_yields_closed {value? : Numeral → Option Number} {o : Nat} {s : List Char}
    {x : Scalar} (h : ScalarText (ByRule value?) s x) (hx : ∀ n, x ≠ .number n)
    (rest : List Char) : Yields (scalar value? ⟨o, s ++ rest⟩) x ⟨o + byteLength s, rest⟩ := by
  cases h with
  | nullWord => exact word_yields (by decide : "null".toList ≠ [])
  | trueWord => exact word_yields (by decide : "true".toList ≠ [])
  | falseWord => exact word_yields (by decide : "false".toList ≠ [])
  | number _ _ => exact absurd rfl (hx _)
  | @string s cs hcs =>
    have hlen : o + byteLength ('"' :: (s ++ ['"'])) = o + 1 + byteLength s + 1 := by
      simp
      omega
    rw [List.cons_append, List.append_assoc, List.singleton_append, scalar, hlen]
    refine (stringBody_yields hcs).bind ?_
    intro hlt
    exact Yields.pure

/-- A text that starts like a number is left to the reader of numbers. -/
theorem scalar_yields_number {value? : Numeral → Option Number} {o : Nat} {d : Char}
    {s : List Char} {x : Number} {next : Cursor} (hd : d = '-' ∨ isDigit d = true)
    (h : Yields (number value? ⟨o, d :: s⟩) x next) :
    Yields (scalar value? ⟨o, d :: s⟩) (.number x) next := by
  have hne : ∀ x : Char, x ≠ '-' → isDigit x = false → d ≠ x := by
    intro x hminus hx
    rcases hd with rfl | hd
    · exact hminus.symm
    · exact ne_of_isDigit hd hx
  -- the reader tries the other kinds of scalars first, which start with other characters
  rw [scalar, if_pos hd]
  · refine h.bind ?_
    intro hlt
    exact Yields.pure
  · exact hne '"' (by decide) (by decide)
  · exact hne 't' (by decide) (by decide)
  · exact hne 'f' (by decide) (by decide)
  · exact hne 'n' (by decide) (by decide)

theorem scalar_yields {value? : Numeral → Option Number} {o : Nat} {s rest : List Char} {x : Scalar}
    (h : ScalarText (ByRule value?) s x) (hrest : Ended rest) :
    Yields (scalar value? ⟨o, s ++ rest⟩) x ⟨o + byteLength s, rest⟩ := by
  cases h with
  | nullWord => exact scalar_yields_closed .nullWord (fun _ => nofun) rest
  | trueWord => exact scalar_yields_closed .trueWord (fun _ => nofun) rest
  | falseWord => exact scalar_yields_closed .falseWord (fun _ => nofun) rest
  | string hcs => exact scalar_yields_closed (.string hcs) (fun _ => nofun) rest
  | number hspells hn =>
    obtain ⟨d, t, rfl, hd⟩ := hspells.head
    exact scalar_yields_number hd (number_yields hspells hn hrest)

/-! ## Limits -/

/-- `n` is within a limit, if there is one. -/
def WithinLimit (limit : Option Nat) (n : Nat) : Prop :=
  ∀ most ∈ limit, n ≤ most

theorem WithinLimit.mono {limit : Option Nat} {m n : Nat} (h : WithinLimit limit n) (hle : m ≤ n) :
    WithinLimit limit m :=
  fun most hmost => Nat.le_trans hle (h most hmost)

theorem withinLimit_max {limit : Option Nat} {k m n : Nat} :
    WithinLimit limit (k + max m n) ↔ WithinLimit limit (k + m) ∧ WithinLimit limit (k + n) := by
  constructor
  · intro h
    exact ⟨h.mono (by omega), h.mono (by omega)⟩
  · rintro ⟨hm, hn⟩ most hmost
    have := hm most hmost
    have := hn most hmost
    omega

theorem exceeded?_eq_none_iff {limit : Option Nat} {n : Nat} :
    exceeded? limit n = none ↔ WithinLimit limit n := by
  simp [exceeded?, WithinLimit]

theorem exceeded?_eq_some {limit : Option Nat} {n most : Nat} (h : exceeded? limit n = some most) :
    limit = some most ∧ most < n := by
  simpa [exceeded?, Option.filter_eq_some_iff] using h

/-- What a reader of values may complain about: the grammar, or the limit on the depth. -/
def Fault.DueTo (maxDepth : Option Nat) : Fault → Prop
  | .malformed _ _ => True
  | .tooDeep _ limit => maxDepth = some limit
  | .tooLarge _ _ => False

theorem Fault.IsMalformed.dueTo {maxDepth : Option Nat} {e : Fault} (h : e.IsMalformed) :
    e.DueTo maxDepth := by
  cases e with
  | malformed _ _ => trivial
  | tooLarge _ _ => exact h.elim
  | tooDeep _ _ => exact h.elim

/-- A reader that complains about the grammar only may stand in one that also counts the depth. -/
theorem Ensures.dueTo {α : Type} {P : α → Prop} {r : Except Fault α}
    (h : Ensures P Fault.IsMalformed r) (maxDepth : Option Nat) :
    Ensures P (Fault.DueTo maxDepth) r :=
  h.mono (fun _ hp => hp) fun _ he => he.dueTo

theorem enter_ensures (maxDepth : Option Nat) (depth here : Nat) :
    Ensures (fun _ => WithinLimit maxDepth depth) (Fault.DueTo maxDepth)
      (enter maxDepth depth here) := by
  unfold enter
  split
  · next limit h => exact .error (exceeded?_eq_some h).1
  · next h => exact .ok (exceeded?_eq_none_iff.1 h)

theorem enter_eq_ok {maxDepth : Option Nat} {depth here : Nat} (h : WithinLimit maxDepth depth) :
    enter maxDepth depth here = .ok () := by
  rw [enter, exceeded?_eq_none_iff.2 h]

/-! ## What is read is located -/

section

variable (rules : Rules)

/-- What is read as a phrase, up to some closing text, is located where the reader started, and at
    that depth it is within the limit. -/
structure Reads (depth : Nat) (c : Cursor) (closing : List Char) (p : Phrase Key Tree)
    (next : Cursor) (s : List Char) : Prop where
  passes : c.Passes (s ++ closing) next
  located : Located (ByRule rules.number?) c.offset s p
  within : WithinLimit rules.maxDepth (depth + p.depth)

/-- What `tree` ensures, if the reader has come to an allowed depth. -/
def TreeEnsures (depth : Nat) (c : Cursor) : Prop :=
  WithinLimit rules.maxDepth depth →
    Ensures (fun r => ∃ s, Reads rules depth c [] (.value r.value) r.next s)
      (Fault.DueTo rules.maxDepth) (tree rules depth c)

/-- What `items` ensures. -/
def ItemsEnsure (depth : Nat) (c : Cursor) : Prop :=
  WithinLimit rules.maxDepth depth →
    Ensures (fun r => ∃ s, Reads rules depth c [']'] (.items r.value) r.next s)
      (Fault.DueTo rules.maxDepth) (items rules depth c)

/-- What `arrayBody` ensures. -/
def ArrayBodyEnsures (depth : Nat) (c : Cursor) : Prop :=
  WithinLimit rules.maxDepth depth →
    Ensures (fun r => (c.Passes [']'] r.next ∧ r.value = [])
        ∨ ∃ s, Reads rules depth c [']'] (.items r.value) r.next s)
      (Fault.DueTo rules.maxDepth) (arrayBody rules depth c)

/-- What `members` ensures. -/
def MembersEnsure (depth : Nat) (c : Cursor) : Prop :=
  WithinLimit rules.maxDepth depth →
    Ensures (fun r => ∃ s, Reads rules depth c ['}'] (.members r.value) r.next s)
      (Fault.DueTo rules.maxDepth) (members rules depth c)

/-- What `objectBody` ensures. -/
def ObjectBodyEnsures (depth : Nat) (c : Cursor) : Prop :=
  WithinLimit rules.maxDepth depth →
    Ensures (fun r => (c.Passes ['}'] r.next ∧ r.value = [])
        ∨ ∃ s, Reads rules depth c ['}'] (.members r.value) r.next s)
      (Fault.DueTo rules.maxDepth) (objectBody rules depth c)

end

variable {rules : Rules}

/-- The span between two places is the span of what lies between them. -/
theorem span_of_passes {c d : Cursor} {s : List Char} (h : c.Passes s d) :
    (⟨c.offset, d.offset⟩ : Span) = spanAt c.offset s := by
  rw [spanAt, h.2]

theorem treeEnsures_array {depth here : Nat} {rest : List Char}
    (ih : ArrayBodyEnsures rules (depth + 1) (Cursor.skipBlanks ⟨here + 1, rest⟩)) :
    TreeEnsures rules depth ⟨here, '[' :: rest⟩ := by
  intro _
  rw [tree]
  refine (enter_ensures rules.maxDepth (depth + 1) here).bind ?_
  intro _ hdepth
  refine (ih hdepth).bind ?_
  obtain ⟨b, hblank, hb⟩ := passes_skipBlanks ⟨here + 1, rest⟩
  have hopen : Cursor.Passes ⟨here, '[' :: rest⟩ ('[' :: b) (Cursor.skipBlanks ⟨here + 1, rest⟩) :=
    hblank.byte rfl
  -- the bracket closes at once, or items stand before it
  rintro ⟨items, next, h⟩ (⟨hclose, rfl⟩ | ⟨s, hread⟩)
  · have hpass := hopen.trans hclose
    have hspan := span_of_passes hpass
    refine .ok ⟨'[' :: (b ++ [']']), by simpa using hpass, ?_, hdepth⟩
    simp only [hspan]
    exact .emptyArray hb
  · have hpass := hopen.trans hread.passes
    have hspan := span_of_passes hpass
    have hloc := hread.located
    rw [hopen.2] at hloc
    refine .ok ⟨'[' :: (b ++ (s ++ [']'])), by simpa using hpass, ?_, ?_⟩
    · simp only [hspan]
      exact .array hb hloc
    · have := hread.within
      simp only [Phrase.depth, Tree.depth] at this ⊢
      exact this.mono (by omega)

theorem treeEnsures_object {depth here : Nat} {rest : List Char}
    (ih : ObjectBodyEnsures rules (depth + 1) (Cursor.skipBlanks ⟨here + 1, rest⟩)) :
    TreeEnsures rules depth ⟨here, '{' :: rest⟩ := by
  intro _
  rw [tree]
  refine (enter_ensures rules.maxDepth (depth + 1) here).bind ?_
  intro _ hdepth
  refine (ih hdepth).bind ?_
  obtain ⟨b, hblank, hb⟩ := passes_skipBlanks ⟨here + 1, rest⟩
  have hopen : Cursor.Passes ⟨here, '{' :: rest⟩ ('{' :: b) (Cursor.skipBlanks ⟨here + 1, rest⟩) :=
    hblank.byte rfl
  rintro ⟨members, next, h⟩ (⟨hclose, rfl⟩ | ⟨s, hread⟩)
  · have hpass := hopen.trans hclose
    have hspan := span_of_passes hpass
    refine .ok ⟨'{' :: (b ++ ['}']), by simpa using hpass, ?_, hdepth⟩
    simp only [hspan]
    exact .emptyObject hb
  · have hpass := hopen.trans hread.passes
    have hspan := span_of_passes hpass
    have hloc := hread.located
    rw [hopen.2] at hloc
    refine .ok ⟨'{' :: (b ++ (s ++ ['}'])), by simpa using hpass, ?_, ?_⟩
    · simp only [hspan]
      exact .object hb hloc
    · have := hread.within
      simp only [Phrase.depth, Tree.depth] at this ⊢
      exact this.mono (by omega)

theorem treeEnsures_scalar {depth : Nat} {c : Cursor}
    (hobject : ∀ here rest, c = ⟨here, '{' :: rest⟩ → False)
    (harray : ∀ here rest, c = ⟨here, '[' :: rest⟩ → False) : TreeEnsures rules depth c := by
  intro hdepth
  rw [tree]
  · refine ((scalar_ensures rules.number? c).dueTo rules.maxDepth).bind ?_
    rintro ⟨x, next, h⟩ ⟨s, hpass, hscalar⟩
    refine .ok ⟨s, by simpa using hpass, ?_, hdepth⟩
    simp only [span_of_passes hpass]
    exact .scalar hscalar
  · exact hobject
  · exact harray

theorem itemsEnsure {depth : Nat} {c : Cursor} (ih : TreeEnsures rules depth c)
    (ih' : ∀ afterItem : Cursor, afterItem.rest.length < c.rest.length →
      ∀ afterEnd : Cursor, afterEnd.rest.length < afterItem.skipBlanks.rest.length →
        ItemsEnsure rules depth afterEnd.skipBlanks) :
    ItemsEnsure rules depth c := by
  intro hdepth
  rw [items]
  refine (ih hdepth).bind ?_
  rintro ⟨item, afterItem, h₁⟩ ⟨s, hread⟩
  obtain ⟨b₁, hblank₁, hb₁⟩ := passes_skipBlanks afterItem
  refine ((itemEnd_ensures afterItem.skipBlanks).dueTo rules.maxDepth).bind ?_
  rintro ⟨more, afterEnd, h₂⟩ hmark
  obtain ⟨b₂, hblank₂, hb₂⟩ := passes_skipBlanks afterEnd
  cases more with
  | false =>
    refine .ok ⟨s ++ b₁, ?_, .lastItem hread.located hb₁, ?_⟩
    · simpa using hread.passes.trans (hblank₁.trans hmark)
    · simpa [Phrase.depth, Tree.itemsDepth] using hread.within
  | true =>
    refine (ih' afterItem h₁ afterEnd h₂ hdepth).bind ?_
    rintro ⟨others, next, h₃⟩ ⟨t, hread'⟩
    have hbefore : c.Passes (s ++ (b₁ ++ ',' :: b₂)) afterEnd.skipBlanks := by
      simpa using hread.passes.trans (hblank₁.trans (hmark.trans hblank₂))
    have hloc := hread'.located
    -- the other items are located behind this one, the comma and the blanks around it
    rw [hbefore.2] at hloc
    refine .ok ⟨s ++ (b₁ ++ ',' :: (b₂ ++ t)), ?_, .item hread.located hb₁ hb₂ hloc, ?_⟩
    · simpa using hbefore.trans hread'.passes
    · exact withinLimit_max.2 ⟨hread.within, hread'.within⟩

theorem membersEnsure {depth here : Nat} {rest : List Char}
    (ih : ∀ afterKey : Cursor, afterKey.rest.length < rest.length →
      ∀ afterColon : Cursor, afterColon.rest.length < afterKey.skipBlanks.rest.length →
        TreeEnsures rules depth afterColon.skipBlanks)
    (ih' : ∀ afterKey : Cursor, afterKey.rest.length < rest.length →
      ∀ afterColon : Cursor, afterColon.rest.length < afterKey.skipBlanks.rest.length →
        ∀ afterValue : Cursor, afterValue.rest.length < afterColon.skipBlanks.rest.length →
          ∀ afterEnd : Cursor, afterEnd.rest.length < afterValue.skipBlanks.rest.length →
            MembersEnsure rules depth afterEnd.skipBlanks) :
    MembersEnsure rules depth ⟨here, '"' :: rest⟩ := by
  intro hdepth
  rw [members]
  refine ((stringBody_ensures here _).dueTo rules.maxDepth).bind ?_
  -- the key, the colon, the value and the mark behind it, each with the blanks that follow
  rintro ⟨name, afterKey, h₁⟩ ⟨k, hkey, hname⟩
  obtain ⟨b₁, hblank₁, hb₁⟩ := passes_skipBlanks afterKey
  refine ((colon_ensures afterKey.skipBlanks).dueTo rules.maxDepth).bind ?_
  rintro ⟨_, afterColon, h₂⟩ hcolon
  obtain ⟨b₂, hblank₂, hb₂⟩ := passes_skipBlanks afterColon
  refine (ih afterKey h₁ afterColon h₂ hdepth).bind ?_
  rintro ⟨value, afterValue, h₃⟩ ⟨s, hread⟩
  obtain ⟨b₃, hblank₃, hb₃⟩ := passes_skipBlanks afterValue
  refine ((memberEnd_ensures afterValue.skipBlanks).dueTo rules.maxDepth).bind ?_
  rintro ⟨more, afterEnd, h₄⟩ hmark
  obtain ⟨b₄, hblank₄, hb₄⟩ := passes_skipBlanks afterEnd
  -- the pieces that were passed so far add up to the offset of the value
  have hquoted : Cursor.Passes ⟨here, '"' :: rest⟩ ('"' :: (k ++ ['"'])) afterKey := hkey.byte rfl
  have hbefore : Cursor.Passes ⟨here, '"' :: rest⟩ ('"' :: (k ++ '"' :: (b₁ ++ ':' :: b₂)))
      afterColon.skipBlanks := by
    simpa using hquoted.trans (hblank₁.trans (hcolon.trans hblank₂))
  have hloc := hread.located
  rw [hbefore.2] at hloc
  have hspan : (⟨here, afterKey.offset⟩ : Span) = spanAt here ('"' :: (k ++ ['"'])) :=
    span_of_passes hquoted
  cases more with
  | false =>
    refine .ok ⟨'"' :: (k ++ '"' :: (b₁ ++ ':' :: (b₂ ++ (s ++ b₃)))), ?_, ?_, ?_⟩
    · simpa using hbefore.trans (hread.passes.trans (hblank₃.trans hmark))
    · simp only [hspan]
      exact .lastMember hname hb₁ hb₂ hloc hb₃
    · simpa [Phrase.depth, Tree.membersDepth] using hread.within
  | true =>
    refine (ih' afterKey h₁ afterColon h₂ afterValue h₃ afterEnd h₄ hdepth).bind ?_
    rintro ⟨others, next, h₅⟩ ⟨t, hread'⟩
    have hmember : Cursor.Passes ⟨here, '"' :: rest⟩
        ('"' :: (k ++ '"' :: (b₁ ++ ':' :: (b₂ ++ (s ++ (b₃ ++ ',' :: b₄))))))
        afterEnd.skipBlanks := by
      simpa using hbefore.trans (hread.passes.trans (hblank₃.trans (hmark.trans hblank₄)))
    have hloc' := hread'.located
    rw [hmember.2] at hloc'
    refine .ok ⟨'"' :: (k ++ '"' :: (b₁ ++ ':' :: (b₂ ++ (s ++ (b₃ ++ ',' :: (b₄ ++ t)))))),
      ?_, ?_, ?_⟩
    · simpa using hmember.trans hread'.passes
    · simp only [hspan]
      exact .member hname hb₁ hb₂ hloc hb₃ hb₄ hloc'
    · exact withinLimit_max.2 ⟨hread.within, hread'.within⟩

/-- Every value that is read is located where it was read. -/
theorem treeEnsures (rules : Rules) (depth : Nat) (c : Cursor) : TreeEnsures rules depth c := by
  -- the five readers call each other, so the statements about them are proved together
  refine tree.induct (TreeEnsures rules) (ArrayBodyEnsures rules) (ItemsEnsure rules)
    (ObjectBodyEnsures rules) (MembersEnsure rules) ?_ ?_ ?_ ?_ ?_ ?_ ?_ ?_ ?_ ?_ depth c
  · intro depth here rest ih
    exact treeEnsures_object ih
  · intro depth here rest ih
    exact treeEnsures_array ih
  · intro depth c hobject harray
    exact treeEnsures_scalar hobject harray
  · intro depth here rest _
    rw [arrayBody]
    exact .ok (.inl ⟨(Cursor.Passes.refl _).byte rfl, rfl⟩)
  · intro depth c hclose ih hdepth
    rw [arrayBody]
    · exact (ih hdepth).mono (fun _ h => .inr h) fun _ he => he
    · exact hclose
  · intro depth c ih ih'
    exact itemsEnsure ih ih'
  · intro depth here rest _
    rw [objectBody]
    exact .ok (.inl ⟨(Cursor.Passes.refl _).byte rfl, rfl⟩)
  · intro depth c hclose ih hdepth
    rw [objectBody]
    · exact (ih hdepth).mono (fun _ h => .inr h) fun _ he => he
    · exact hclose
  · intro depth here rest ih ih'
    exact membersEnsure ih ih'
  · intro depth c hquote _
    rw [members]
    · exact .error trivial
    · exact hquote

/-! ## What is located is read -/

/-- A character that a value may start with. -/
def startsValue (x : Char) : Bool :=
  x == '{' || x == '[' || x == '"' || x == 't' || x == 'f' || x == 'n' || x == '-' || isDigit x

theorem startsValue_of_isDigit {x : Char} (h : isDigit x = true) : startsValue x = true := by
  simp [startsValue, h]

/-- A value starts neither with a blank nor with a closing bracket. -/
theorem not_startsValue {x : Char} (h : isJsonBlank x = true ∨ x = ']') :
    startsValue x = false := by
  simp only [isJsonBlank, Bool.or_eq_true, beq_iff_eq] at h
  rcases h with (((rfl | rfl) | rfl) | rfl) | rfl <;> rfl

theorem ScalarText.head {denotes : Numeral → Number → Prop} {s : List Char} {x : Scalar}
    (h : ScalarText denotes s x) :
    ∃ d t, s = d :: t ∧ startsValue d = true ∧ d ≠ '{' ∧ d ≠ '[' := by
  cases h with
  | nullWord => exact ⟨'n', _, rfl, rfl, by decide, by decide⟩
  | trueWord => exact ⟨'t', _, rfl, rfl, by decide, by decide⟩
  | falseWord => exact ⟨'f', _, rfl, rfl, by decide, by decide⟩
  | string _ => exact ⟨'"', _, rfl, rfl, by decide, by decide⟩
  | number hspells _ =>
    obtain ⟨d, t, rfl, rfl | hd⟩ := hspells.head
    · exact ⟨'-', t, rfl, rfl, by decide, by decide⟩
    · exact ⟨d, t, rfl, startsValue_of_isDigit hd, ne_of_isDigit hd (by decide),
        ne_of_isDigit hd (by decide)⟩

theorem Located.head {denotes : Numeral → Number → Prop} {o : Nat} {s : List Char} {t : Tree}
    (h : Located denotes o s (.value t)) : ∃ d r, s = d :: r ∧ startsValue d = true := by
  cases h with
  | scalar h =>
    obtain ⟨d, r, rfl, hd, -⟩ := h.head
    exact ⟨d, r, rfl, hd⟩
  | emptyArray _ => exact ⟨_, _, rfl, rfl⟩
  | array _ _ => exact ⟨_, _, rfl, rfl⟩
  | emptyObject _ => exact ⟨_, _, rfl, rfl⟩
  | object _ _ => exact ⟨_, _, rfl, rfl⟩

theorem Located.items_head {denotes : Numeral → Number → Prop} {o : Nat} {s : List Char}
    {ts : List Tree} (h : Located denotes o s (.items ts)) :
    ∃ d r, s = d :: r ∧ startsValue d = true := by
  cases h with
  | lastItem h _ =>
    obtain ⟨d, r, rfl, hd⟩ := h.head
    exact ⟨d, _, rfl, hd⟩
  | item h _ _ _ =>
    obtain ⟨d, r, rfl, hd⟩ := h.head
    exact ⟨d, _, rfl, hd⟩

theorem Located.members_head {denotes : Numeral → Number → Prop} {o : Nat} {s : List Char}
    {ms : List (Key × Tree)} (h : Located denotes o s (.members ms)) : ∃ r, s = '"' :: r := by
  cases h with
  | lastMember _ _ _ _ _ => exact ⟨_, rfl⟩
  | member _ _ _ _ _ _ _ => exact ⟨_, rfl⟩

/-- What starts like a value is no blank. -/
theorem stopsAt_blank {s rest : List Char} (h : ∃ d r, s = d :: r ∧ startsValue d = true) :
    Cursor.StopsAt isJsonBlank (s ++ rest) := by
  obtain ⟨d, r, rfl, hd⟩ := h
  rw [List.cons_append, Cursor.stopsAt_cons]
  cases hb : isJsonBlank d with
  | false => rfl
  | true => rw [not_startsValue (.inl hb)] at hd; cases hd

section

variable (rules : Rules)

/-- The reader that belongs to a phrase yields it. A list of items or members is read together with
    the bracket that closes it. -/
def PhraseYields (o : Nat) (s : List Char) : Phrase Key Tree → Prop
  | .value t => ∀ depth rest, Ended rest → WithinLimit rules.maxDepth (depth + t.depth) →
      Yields (tree rules depth ⟨o, s ++ rest⟩) t ⟨o + byteLength s, rest⟩
  | .items ts => ∀ depth rest, WithinLimit rules.maxDepth (depth + Tree.itemsDepth ts) →
      Yields (items rules depth ⟨o, s ++ ']' :: rest⟩) ts ⟨o + byteLength s + 1, rest⟩
  | .members ms => ∀ depth rest, WithinLimit rules.maxDepth (depth + Tree.membersDepth ms) →
      Yields (members rules depth ⟨o, s ++ '}' :: rest⟩) ms ⟨o + byteLength s + 1, rest⟩

/-- The reader of values yields the tree, whatever follows it. -/
def TreeYields (o : Nat) (s : List Char) (t : Tree) : Prop :=
  ∀ depth rest, WithinLimit rules.maxDepth (depth + t.depth) →
    Yields (tree rules depth ⟨o, s ++ rest⟩) t ⟨o + byteLength s, rest⟩

end

theorem TreeYields.phraseYields {o : Nat} {s : List Char} {t : Tree} (h : TreeYields rules o s t) :
    PhraseYields rules o s (.value t) :=
  fun depth rest _ hdepth => h depth rest hdepth

/-- A value that starts with neither opening bracket is left to the reader of scalars. -/
theorem tree_eq_scalar {depth o : Nat} {d : Char} (hbrace : d ≠ '{') (hbracket : d ≠ '[')
    (s : List Char) :
    tree rules depth ⟨o, d :: s⟩ = (do
      let ⟨x, next, h⟩ ← scalar rules.number? ⟨o, d :: s⟩
      return ⟨.leaf ⟨o, next.offset⟩ x, next, h⟩) := by
  rw [tree]
  · intro here tail heq
    injection heq with _ heq
    exact hbrace (List.cons.inj heq).1
  · intro here tail heq
    injection heq with _ heq
    exact hbracket (List.cons.inj heq).1

theorem tree_yields_scalar {depth o : Nat} {s rest : List Char} {x : Scalar}
    (h : ScalarText (ByRule rules.number?) s x)
    (hread : Yields (scalar rules.number? ⟨o, s ++ rest⟩) x ⟨o + byteLength s, rest⟩) :
    Yields (tree rules depth ⟨o, s ++ rest⟩) (.leaf (spanAt o s) x) ⟨o + byteLength s, rest⟩ := by
  obtain ⟨d, t, rfl, -, hbrace, hbracket⟩ := h.head
  rw [List.cons_append, tree_eq_scalar hbrace hbracket]
  refine hread.bind ?_
  intro hlt
  exact Yields.pure

theorem yields_scalar {o : Nat} {s : List Char} {x : Scalar}
    (h : ScalarText (ByRule rules.number?) s x) :
    PhraseYields rules o s (.value (.leaf (spanAt o s) x)) := by
  intro depth rest hrest _
  exact tree_yields_scalar h (scalar_yields h hrest)

theorem tree_yields_array {depth o : Nat} {b s : List Char} {ts : List Tree} {next : Cursor}
    (hdepth : WithinLimit rules.maxDepth (depth + 1)) (hb : Blanks b)
    (hs : Cursor.StopsAt isJsonBlank s)
    (h : Yields (arrayBody rules (depth + 1) ⟨o + 1 + byteLength b, s⟩) ts next) :
    Yields (tree rules depth ⟨o, '[' :: (b ++ s)⟩) (.array ⟨o, next.offset⟩ ts) next := by
  have hskip : Cursor.skipBlanks ⟨o + 1, b ++ s⟩ = ⟨o + 1 + byteLength b, s⟩ :=
    skipBlanks_append hb hs
  rw [← hskip] at h
  rw [tree, enter_eq_ok hdepth, ok_bind]
  refine h.bind ?_
  intro hlt
  exact Yields.pure

theorem tree_yields_object {depth o : Nat} {b s : List Char} {ms : List (Key × Tree)}
    {next : Cursor} (hdepth : WithinLimit rules.maxDepth (depth + 1)) (hb : Blanks b)
    (hs : Cursor.StopsAt isJsonBlank s)
    (h : Yields (objectBody rules (depth + 1) ⟨o + 1 + byteLength b, s⟩) ms next) :
    Yields (tree rules depth ⟨o, '{' :: (b ++ s)⟩) (.object ⟨o, next.offset⟩ ms) next := by
  have hskip : Cursor.skipBlanks ⟨o + 1, b ++ s⟩ = ⟨o + 1 + byteLength b, s⟩ :=
    skipBlanks_append hb hs
  rw [← hskip] at h
  rw [tree, enter_eq_ok hdepth, ok_bind]
  refine h.bind ?_
  intro hlt
  exact Yields.pure

theorem yields_emptyArray {o : Nat} {b : List Char} (hb : Blanks b) :
    TreeYields rules o ('[' :: (b ++ [']']))
      (.array (spanAt o ('[' :: (b ++ [']']))) []) := by
  intro depth rest hdepth
  have hlen : o + byteLength ('[' :: (b ++ [']'])) = o + 1 + byteLength b + 1 := by
    simp
    omega
  have hbody : Yields (arrayBody rules (depth + 1) ⟨o + 1 + byteLength b, ']' :: rest⟩) []
      ⟨o + 1 + byteLength b + 1, rest⟩ := by
    rw [arrayBody]
    exact ⟨_, rfl⟩
  rw [List.cons_append, List.append_assoc, List.singleton_append, spanAt, hlen]
  exact tree_yields_array hdepth hb (by simp [isJsonBlank]) hbody

theorem yields_array {o : Nat} {b s : List Char} {ts : List Tree} (hb : Blanks b)
    (hs : ∃ d r, s = d :: r ∧ startsValue d = true)
    (ih : PhraseYields rules (o + byteLength ('[' :: b)) s (.items ts)) :
    TreeYields rules o ('[' :: (b ++ (s ++ [']'])))
      (.array (spanAt o ('[' :: (b ++ (s ++ [']'])))) ts) := by
  intro depth rest hdepth
  have hopen : o + byteLength ('[' :: b) = o + 1 + byteLength b := by
    simp
    omega
  have hlen : o + byteLength ('[' :: (b ++ (s ++ [']'])))
      = o + 1 + byteLength b + byteLength s + 1 := by
    simp
    omega
  have hitems := ih (depth + 1) rest (hdepth.mono (by simp only [Tree.depth]; omega))
  rw [hopen] at hitems
  have hbody : Yields (arrayBody rules (depth + 1) ⟨o + 1 + byteLength b, s ++ ']' :: rest⟩) ts
      ⟨o + 1 + byteLength b + byteLength s + 1, rest⟩ := by
    rw [arrayBody]
    · exact hitems
    · -- an item does not start with the closing bracket, so the array is not taken for empty
      intro here tail heq
      obtain ⟨d, r, rfl, hd⟩ := hs
      injection heq with _ heq
      rw [not_startsValue (.inr (List.cons.inj heq).1)] at hd
      cases hd
  rw [List.cons_append, List.append_assoc, List.append_assoc, List.singleton_append, spanAt, hlen]
  exact tree_yields_array (hdepth.mono (by simp only [Tree.depth]; omega)) hb
    (stopsAt_blank hs) hbody

theorem yields_emptyObject {o : Nat} {b : List Char} (hb : Blanks b) :
    TreeYields rules o ('{' :: (b ++ ['}']))
      (.object (spanAt o ('{' :: (b ++ ['}']))) []) := by
  intro depth rest hdepth
  have hlen : o + byteLength ('{' :: (b ++ ['}'])) = o + 1 + byteLength b + 1 := by
    simp
    omega
  have hbody : Yields (objectBody rules (depth + 1) ⟨o + 1 + byteLength b, '}' :: rest⟩) []
      ⟨o + 1 + byteLength b + 1, rest⟩ := by
    rw [objectBody]
    exact ⟨_, rfl⟩
  rw [List.cons_append, List.append_assoc, List.singleton_append, spanAt, hlen]
  exact tree_yields_object hdepth hb (by simp [isJsonBlank]) hbody

theorem yields_object {o : Nat} {b s : List Char} {ms : List (Key × Tree)} (hb : Blanks b)
    (hs : ∃ r, s = '"' :: r)
    (ih : PhraseYields rules (o + byteLength ('{' :: b)) s (.members ms)) :
    TreeYields rules o ('{' :: (b ++ (s ++ ['}'])))
      (.object (spanAt o ('{' :: (b ++ (s ++ ['}'])))) ms) := by
  intro depth rest hdepth
  have hopen : o + byteLength ('{' :: b) = o + 1 + byteLength b := by
    simp
    omega
  have hlen : o + byteLength ('{' :: (b ++ (s ++ ['}'])))
      = o + 1 + byteLength b + byteLength s + 1 := by
    simp
    omega
  have hmembers := ih (depth + 1) rest (hdepth.mono (by simp only [Tree.depth]; omega))
  rw [hopen] at hmembers
  obtain ⟨r, rfl⟩ := hs
  have hbody : Yields (objectBody rules (depth + 1)
      ⟨o + 1 + byteLength b, '"' :: r ++ '}' :: rest⟩) ms
      ⟨o + 1 + byteLength b + byteLength ('"' :: r) + 1, rest⟩ := by
    rw [objectBody]
    · exact hmembers
    · intro here tail heq
      injection heq with _ heq
      exact absurd (List.cons.inj heq).1 (by decide)
  rw [List.cons_append, List.append_assoc, List.append_assoc, List.singleton_append, spanAt, hlen]
  exact tree_yields_object (hdepth.mono (by simp only [Tree.depth]; omega)) hb
    (by simp [isJsonBlank]) hbody

/-! Blanks and the mark behind them are passed by one step. -/

theorem itemEnd_yields {o : Nat} {b rest : List Char} (more : Bool) (hb : Blanks b) :
    Yields (itemEnd (Cursor.skipBlanks ⟨o, b ++ (if more then ',' else ']') :: rest⟩)) more
      ⟨o + byteLength b + 1, rest⟩ := by
  rw [skipBlanks_mark rest hb (by cases more <;> rfl)]
  cases more with
  | true => exact ⟨_, rfl⟩
  | false => exact ⟨_, rfl⟩

theorem memberEnd_yields {o : Nat} {b rest : List Char} (more : Bool) (hb : Blanks b) :
    Yields (memberEnd (Cursor.skipBlanks ⟨o, b ++ (if more then ',' else '}') :: rest⟩)) more
      ⟨o + byteLength b + 1, rest⟩ := by
  rw [skipBlanks_mark rest hb (by cases more <;> rfl)]
  cases more with
  | true => exact ⟨_, rfl⟩
  | false => exact ⟨_, rfl⟩

theorem colon_yields {o : Nat} {b rest : List Char} (hb : Blanks b) :
    Yields (colon (Cursor.skipBlanks ⟨o, b ++ ':' :: rest⟩)) () ⟨o + byteLength b + 1, rest⟩ := by
  rw [skipBlanks_mark rest hb rfl]
  exact ⟨_, rfl⟩

theorem yields_lastItem {o : Nat} {s b : List Char} {t : Tree}
    (ih : PhraseYields rules o s (.value t)) (hb : Blanks b) :
    PhraseYields rules o (s ++ b) (.items [t]) := by
  intro depth rest hdepth
  have hitem := ih depth (b ++ ']' :: rest)
    (ended_blanks hb ((Cursor.stopsAt_cons _ _ _).2 rfl)) (hdepth.mono (by simp [Tree.itemsDepth]))
  rw [List.append_assoc, items, byteLength_append, ← Nat.add_assoc]
  refine hitem.bind ?_
  intro hlt
  refine (itemEnd_yields false hb).bind ?_
  intro hlt'
  exact Yields.pure

theorem yields_item {o : Nat} {s b₁ b₂ r : List Char} {t : Tree} {ts : List Tree}
    (ih : PhraseYields rules o s (.value t)) (hb₁ : Blanks b₁) (hb₂ : Blanks b₂)
    (hr : ∃ d u, r = d :: u ∧ startsValue d = true)
    (ih' : PhraseYields rules (o + byteLength (s ++ (b₁ ++ ',' :: b₂))) r (.items ts)) :
    PhraseYields rules o (s ++ (b₁ ++ ',' :: (b₂ ++ r))) (.items (t :: ts)) := by
  intro depth rest hdepth
  obtain ⟨hdepth₁, hdepth₂⟩ := withinLimit_max.1 hdepth
  -- a comma ends a number, also behind blanks
  have hitem := ih depth (b₁ ++ ',' :: (b₂ ++ (r ++ ']' :: rest)))
    (ended_blanks hb₁ ((Cursor.stopsAt_cons _ _ _).2 rfl)) hdepth₁
  have hskip : Cursor.skipBlanks ⟨o + byteLength s + byteLength b₁ + 1, b₂ ++ (r ++ ']' :: rest)⟩
      = ⟨o + byteLength (s ++ (b₁ ++ ',' :: b₂)), r ++ ']' :: rest⟩ := by
    rw [skipBlanks_append hb₂ (stopsAt_blank hr)]
    simp
    omega
  have hothers := ih' depth rest hdepth₂
  rw [← hskip] at hothers
  have hlen : o + byteLength (s ++ (b₁ ++ ',' :: (b₂ ++ r)))
      = o + byteLength (s ++ (b₁ ++ ',' :: b₂)) + byteLength r := by
    simp
    omega
  rw [List.append_assoc, List.append_assoc, List.cons_append, List.append_assoc, items, hlen]
  refine hitem.bind ?_
  intro hlt
  refine (itemEnd_yields true hb₁).bind ?_
  intro hlt'
  refine hothers.bind ?_
  intro hlt''
  exact Yields.pure

/-- One member and the mark behind it: a comma with more members to come, or the closing brace. -/
theorem members_yields {depth o : Nat} {k cs b₁ b₂ s b₃ : List Char} {t : Tree} (more : Bool)
    (rest : List Char) {others : List (Key × Tree)} {next : Cursor}
    (hk : Characters k cs) (hb₁ : Blanks b₁) (hb₂ : Blanks b₂)
    (hs : ∃ d r, s = d :: r ∧ startsValue d = true)
    (hvalue : PhraseYields rules (o + byteLength ('"' :: (k ++ '"' :: (b₁ ++ ':' :: b₂)))) s
      (.value t))
    (hdepth : WithinLimit rules.maxDepth (depth + t.depth)) (hb₃ : Blanks b₃)
    (hmore : if more then
        Yields (members rules depth (Cursor.skipBlanks
          ⟨o + byteLength ('"' :: (k ++ '"' :: (b₁ ++ ':' :: (b₂ ++ (s ++ b₃))))) + 1, rest⟩))
          others next
      else others = [] ∧ next
        = ⟨o + byteLength ('"' :: (k ++ '"' :: (b₁ ++ ':' :: (b₂ ++ (s ++ b₃))))) + 1, rest⟩) :
    Yields (members rules depth ⟨o, '"' :: (k ++ '"' :: (b₁ ++ ':' :: (b₂ ++ (s ++ (b₃
        ++ (if more then ',' else '}') :: rest)))))⟩)
      ((⟨String.ofList cs, spanAt o ('"' :: (k ++ ['"']))⟩, t) :: others) next := by
  have hkey : o + byteLength ('"' :: (k ++ ['"'])) = o + 1 + byteLength k + 1 := by
    simp
    omega
  have hbefore : o + byteLength ('"' :: (k ++ '"' :: (b₁ ++ ':' :: b₂)))
      = o + 1 + byteLength k + 1 + byteLength b₁ + 1 + byteLength b₂ := by
    simp
    omega
  have hall : o + byteLength ('"' :: (k ++ '"' :: (b₁ ++ ':' :: (b₂ ++ (s ++ b₃))))) + 1
      = o + 1 + byteLength k + 1 + byteLength b₁ + 1 + byteLength b₂ + byteLength s + byteLength b₃
        + 1 := by
    simp
    omega
  -- the mark behind the value ends a number that the value may be
  rw [hbefore] at hvalue
  have hread := hvalue depth (b₃ ++ (if more then ',' else '}') :: rest)
    (ended_blanks hb₃ ((Cursor.stopsAt_cons _ _ _).2 (by cases more <;> rfl))) hdepth
  rw [← skipBlanks_append hb₂ (stopsAt_blank hs)] at hread
  rw [hall] at hmore
  rw [members, spanAt, hkey]
  refine (stringBody_yields hk).bind ?_
  intro hlt₁
  refine (colon_yields hb₁).bind ?_
  intro hlt₂
  refine hread.bind ?_
  intro hlt₃
  refine (memberEnd_yields more hb₃).bind ?_
  intro hlt₄
  cases more with
  | false =>
    obtain ⟨rfl, rfl⟩ := hmore
    exact Yields.pure
  | true =>
    refine Yields.bind hmore ?_
    intro hlt₅
    exact Yields.pure

theorem yields_lastMember {o : Nat} {k cs b₁ b₂ s b₃ : List Char} {t : Tree}
    (hk : Characters k cs) (hb₁ : Blanks b₁) (hb₂ : Blanks b₂)
    (hs : ∃ d r, s = d :: r ∧ startsValue d = true)
    (ih : PhraseYields rules (o + byteLength ('"' :: (k ++ '"' :: (b₁ ++ ':' :: b₂)))) s (.value t))
    (hb₃ : Blanks b₃) :
    PhraseYields rules o ('"' :: (k ++ '"' :: (b₁ ++ ':' :: (b₂ ++ (s ++ b₃)))))
      (.members [(⟨String.ofList cs, spanAt o ('"' :: (k ++ ['"']))⟩, t)]) := by
  intro depth rest hdepth
  have hvalue : WithinLimit rules.maxDepth (depth + t.depth) :=
    hdepth.mono (by simp [Tree.membersDepth])
  have hshape : '"' :: (k ++ '"' :: (b₁ ++ ':' :: (b₂ ++ (s ++ b₃)))) ++ '}' :: rest
      = '"' :: (k ++ '"' :: (b₁ ++ ':' :: (b₂ ++ (s ++ (b₃ ++ '}' :: rest))))) := by simp
  rw [hshape]
  exact members_yields false rest hk hb₁ hb₂ hs ih hvalue hb₃ ⟨rfl, rfl⟩

theorem yields_member {o : Nat} {k cs b₁ b₂ s b₃ b₄ r : List Char} {t : Tree}
    {ms : List (Key × Tree)} (hk : Characters k cs) (hb₁ : Blanks b₁) (hb₂ : Blanks b₂)
    (hs : ∃ d r, s = d :: r ∧ startsValue d = true)
    (ih : PhraseYields rules (o + byteLength ('"' :: (k ++ '"' :: (b₁ ++ ':' :: b₂)))) s (.value t))
    (hb₃ : Blanks b₃) (hb₄ : Blanks b₄) (hr : ∃ u, r = '"' :: u)
    (ih' : PhraseYields rules
      (o + byteLength ('"' :: (k ++ '"' :: (b₁ ++ ':' :: (b₂ ++ (s ++ (b₃ ++ ',' :: b₄))))))) r
      (.members ms)) :
    PhraseYields rules o
      ('"' :: (k ++ '"' :: (b₁ ++ ':' :: (b₂ ++ (s ++ (b₃ ++ ',' :: (b₄ ++ r)))))))
      (.members ((⟨String.ofList cs, spanAt o ('"' :: (k ++ ['"']))⟩, t) :: ms)) := by
  intro depth rest hdepth
  obtain ⟨hdepth₁, hdepth₂⟩ := withinLimit_max.1 hdepth
  have hshape : '"' :: (k ++ '"' :: (b₁ ++ ':' :: (b₂ ++ (s ++ (b₃ ++ ',' :: (b₄ ++ r))))))
      ++ '}' :: rest
      = '"' :: (k ++ '"' :: (b₁ ++ ':' ::
          (b₂ ++ (s ++ (b₃ ++ ',' :: (b₄ ++ (r ++ '}' :: rest))))))) := by
    simp
  have hr' : Cursor.StopsAt isJsonBlank (r ++ '}' :: rest) := by
    obtain ⟨u, rfl⟩ := hr
    simp [isJsonBlank]
  have hskip : Cursor.skipBlanks
      ⟨o + byteLength ('"' :: (k ++ '"' :: (b₁ ++ ':' :: (b₂ ++ (s ++ b₃))))) + 1,
        b₄ ++ (r ++ '}' :: rest)⟩
      = ⟨o + byteLength ('"' :: (k ++ '"' :: (b₁ ++ ':' :: (b₂ ++ (s ++ (b₃ ++ ',' :: b₄)))))),
        r ++ '}' :: rest⟩ := by
    rw [skipBlanks_append hb₄ hr']
    simp
    omega
  have hlen : o + byteLength
        ('"' :: (k ++ '"' :: (b₁ ++ ':' :: (b₂ ++ (s ++ (b₃ ++ ',' :: (b₄ ++ r)))))))
      = o + byteLength ('"' :: (k ++ '"' :: (b₁ ++ ':' :: (b₂ ++ (s ++ (b₃ ++ ',' :: b₄))))))
        + byteLength r := by
    simp
    omega
  have hothers := ih' depth rest hdepth₂
  rw [← hskip] at hothers
  rw [hshape, hlen]
  exact members_yields true (b₄ ++ (r ++ '}' :: rest)) hk hb₁ hb₂ hs ih hdepth₁ hb₃ hothers

/-- Every located phrase is read by the reader that belongs to it. -/
theorem Located.yields {o : Nat} {s : List Char} {p : Phrase Key Tree}
    (h : Located (ByRule rules.number?) o s p) : PhraseYields rules o s p := by
  induction h with
  | scalar h => exact yields_scalar h
  | emptyArray hb => exact (yields_emptyArray hb).phraseYields
  | array hb h ih => exact (yields_array hb h.items_head ih).phraseYields
  | emptyObject hb => exact (yields_emptyObject hb).phraseYields
  | object hb h ih => exact (yields_object hb h.members_head ih).phraseYields
  | lastItem _ hb ih => exact yields_lastItem ih hb
  | item _ hb₁ hb₂ h' ih ih' => exact yields_item ih hb₁ hb₂ h'.items_head ih'
  | lastMember hk hb₁ hb₂ h hb₃ ih => exact yields_lastMember hk hb₁ hb₂ h.head ih hb₃
  | member hk hb₁ hb₂ h hb₃ hb₄ h' ih ih' =>
    exact yields_member hk hb₁ hb₂ h.head ih hb₃ hb₄ h'.members_head ih'

/-! ## Whole texts -/

/-- The text holds one tree between blanks, located and within the limit on the depth. -/
def HoldsTree (rules : Rules) (text : List Char) (t : Tree) : Prop :=
  ∃ b₁ s b₂, text = b₁ ++ (s ++ b₂) ∧ Blanks b₁ ∧ Blanks b₂
    ∧ Located (ByRule rules.number?) (byteLength b₁) s (.value t)
    ∧ WithinLimit rules.maxDepth t.depth

theorem finish_ensures (c : Cursor) :
    Ensures (fun _ => Blanks c.rest) Fault.IsMalformed (finish c) := by
  obtain ⟨b, hblank, hb⟩ := passes_skipBlanks c
  unfold finish
  split
  · next hempty =>
    rw [List.isEmpty_iff] at hempty
    rw [hblank.1, hempty, List.append_nil]
    exact .ok hb
  · exact .error trivial

theorem finish_eq_ok {o : Nat} {b : List Char} (hb : Blanks b) : finish ⟨o, b⟩ = .ok () := by
  have hskip := @skipBlanks_append o b [] hb (Cursor.stopsAt_nil _)
  rw [List.append_nil] at hskip
  rw [finish, hskip]
  rfl

/-- Reading a text ends in a tree that the text holds, or in a fault of the text. -/
theorem readBy_ensures (rules : Rules) (text : List Char) :
    Ensures (HoldsTree rules text) (Fault.DueTo rules.maxDepth) (readBy rules text) := by
  obtain ⟨b₁, hblank, hb₁⟩ := passes_skipBlanks (Cursor.atStart text)
  unfold readBy
  have hdepth : WithinLimit rules.maxDepth 0 := fun _ _ => Nat.zero_le _
  refine (treeEnsures rules 0 _ hdepth).bind ?_
  rintro ⟨t, next, h⟩ ⟨s, hread⟩
  refine ((finish_ensures next).dueTo rules.maxDepth).bind ?_
  intro _ hb₂
  have hpass := hblank.trans hread.passes
  have hloc := hread.located
  have hoffset : (Cursor.atStart text).skipBlanks.offset = byteLength b₁ := by
    rw [hblank.2]
    exact Nat.zero_add _
  rw [hoffset] at hloc
  refine .ok ⟨b₁, s, next.rest, ?_, hb₁, hb₂, hloc, ?_⟩
  · have := hpass.1
    rwa [List.append_nil, List.append_assoc] at this
  · have := hread.within
    rwa [Nat.zero_add] at this

/-- A text that holds a tree is read as that tree. -/
theorem readBy_eq_ok {text : List Char} {t : Tree} (h : HoldsTree rules text t) :
    readBy rules text = .ok t := by
  obtain ⟨b₁, s, b₂, rfl, hb₁, hb₂, hloc, hdepth⟩ := h
  have hskip : (Cursor.atStart (b₁ ++ (s ++ b₂))).skipBlanks = ⟨byteLength b₁, s ++ b₂⟩ := by
    rw [Cursor.atStart, skipBlanks_append hb₁ (stopsAt_blank hloc.head), Nat.zero_add]
  -- so does the end of the text
  have hended : Ended b₂ := by simpa using ended_blanks hb₂ (Cursor.stopsAt_nil _)
  have hyields := hloc.yields 0 b₂ hended (by simpa using hdepth)
  rw [← hskip] at hyields
  obtain ⟨hlt, heq⟩ := hyields
  rw [readBy, heq, ok_bind]
  dsimp only
  rw [finish_eq_ok hb₂]
  rfl

/-- A tree is read from a text if and only if the text holds it. -/
theorem readBy_eq_ok_iff {text : List Char} {t : Tree} :
    readBy rules text = .ok t ↔ HoldsTree rules text t := by
  constructor
  · intro h
    have := readBy_ensures rules text
    rw [h] at this
    exact this.of_ok
  · exact readBy_eq_ok

end BimEditor.Json
