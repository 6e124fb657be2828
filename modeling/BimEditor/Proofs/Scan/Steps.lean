/-
  BimEditor.Proofs.Scan.Steps

  What the scanners of raw text do at one place: at a quote they go on behind the string, at any
  other character behind that character. Later proofs follow these equations and not the recursion
  of the scanners, and a string is skipped by one function of cursors (`afterString`). Induction
  over a scan has one case for a string and one for a character (`scanInduction`).
-/
import BimEditor.Proofs.Text.Passage
import BimEditor.Scan.Region

namespace BimEditor.Scan

open BimEditor.Text

variable {d : Delimiter} {inner depth least o : Nat} {c : Char} {rest : List Char}

/-! ## Strings -/

/-- The place behind a string literal whose opening quote was just passed. -/
def afterString (c : Cursor) : Option Cursor :=
  (skipString c.offset c.rest).map (·.val)

@[simp]
theorem afterString_nil : afterString ⟨o, []⟩ = none := rfl

@[simp]
theorem afterString_quote : afterString ⟨o, '"' :: rest⟩ = some ⟨o + 1, rest⟩ := rfl

@[simp]
theorem afterString_lastSlash : afterString ⟨o, ['\\']⟩ = none := rfl

/-- A backslash hides the character behind it. -/
@[simp]
theorem afterString_slash :
    afterString ⟨o, '\\' :: c :: rest⟩ = afterString ⟨o + 1 + c.utf8Size, rest⟩ := by
  simp only [afterString, skipString, Option.map_map]
  rfl

theorem afterString_other (hquote : c ≠ '"') (hslash : c ≠ '\\') :
    afterString ⟨o, c :: rest⟩ = afterString ⟨o + c.utf8Size, rest⟩ := by
  rw [afterString, skipString, Option.map_map]
  · rfl
  · exact hquote
  · intro h
    exact absurd h hslash
  · intro _ _ h
    exact absurd h hslash

/-- Characters that are neither quotes nor backslashes are passed one by one. -/
theorem afterString_append {s : List Char} (h : ∀ x ∈ s, x ≠ '"' ∧ x ≠ '\\') :
    afterString ⟨o, s ++ rest⟩ = afterString ⟨o + byteLength s, rest⟩ := by
  induction s generalizing o with
  | nil => rfl
  | cons x s ih =>
    obtain ⟨hquote, hslash⟩ := h x List.mem_cons_self
    rw [List.cons_append, afterString_other hquote hslash,
      ih fun y hy => h y (List.mem_cons_of_mem x hy), byteLength_cons, Nat.add_assoc]

/-- A string ends at a quote, and a backslash is passed together with the character behind it. -/
theorem stringInduction {P : Cursor → Prop} (nil : ∀ o, P ⟨o, []⟩)
    (quote : ∀ o rest, P ⟨o, '"' :: rest⟩) (lastSlash : ∀ o, P ⟨o, ['\\']⟩)
    (slash : ∀ o c rest, P ⟨o + 1 + c.utf8Size, rest⟩ → P ⟨o, '\\' :: c :: rest⟩)
    (other : ∀ o c rest, c ≠ '"' → c ≠ '\\' → P ⟨o + c.utf8Size, rest⟩ → P ⟨o, c :: rest⟩)
    (c : Cursor) : P c := by
  obtain ⟨o, rest⟩ := c
  induction o, rest using skipString.induct with
  | case1 o => exact nil o
  | case2 o rest => exact quote o rest
  | case3 o => exact lastSlash o
  | case4 o c rest ih => exact slash o c rest ih
  | case5 o c rest hquote hlast hslash ih =>
    refine other o c rest hquote ?_ ih
    intro hc
    cases rest with
    | nil => exact hlast hc rfl
    | cons x rest => exact hslash x rest hc rfl

/-- A string that is skipped ends with a quote. -/
theorem passes_afterString {c next : Cursor} (h : afterString c = some next) :
    ∃ s, c.Passes (s ++ ['"']) next := by
  induction c using stringInduction with
  | nil o => cases h
  | quote o rest =>
    obtain rfl := Option.some.inj h
    exact ⟨[], (Cursor.Passes.refl _).byte rfl⟩
  | lastSlash o => cases h
  | slash o c rest ih =>
    rw [afterString_slash] at h
    obtain ⟨s, hpass⟩ := ih h
    have hhidden : Cursor.Passes ⟨o + 1, c :: rest⟩ (c :: (s ++ ['"'])) next := hpass.cons
    exact ⟨'\\' :: c :: s, hhidden.byte rfl⟩
  | other o c rest hquote hslash ih =>
    rw [afterString_other hquote hslash] at h
    obtain ⟨s, hpass⟩ := ih h
    exact ⟨c :: s, hpass.cons⟩

/-! ## Scans -/

/-- A scan goes on behind a string or behind another character, until the text ends. -/
theorem scanInduction {P : Cursor → Prop} (nil : ∀ o, P ⟨o, []⟩)
    (quote : ∀ o rest, (∀ next, afterString ⟨o + 1, rest⟩ = some next → P next) →
      P ⟨o, '"' :: rest⟩)
    (other : ∀ o c rest, c ≠ '"' → P ⟨o + c.utf8Size, rest⟩ → P ⟨o, c :: rest⟩) (c : Cursor) :
    P c := by
  obtain ⟨o, text⟩ := c
  induction hlength : text.length using Nat.strongRecOn generalizing o text with
  | ind n ih =>
    subst hlength
    cases text with
    | nil => exact nil o
    | cons c rest =>
      by_cases hquote : c = '"'
      · subst hquote
        refine quote o rest fun next hnext => ?_
        obtain ⟨s, hrest, -⟩ := passes_afterString hnext
        have hshorter := congrArg List.length hrest
        simp only [List.length_append, List.length_cons] at hshorter
        exact ih next.rest.length (by simp only [List.length_cons]; omega) next.offset next.rest rfl
      · exact other o c rest hquote (ih rest.length (Nat.lt_succ_self _) _ rest rfl)

theorem lt_offset_of_afterString {next : Cursor} {c : Cursor} (h : afterString c = some next) :
    c.offset < next.offset := by
  obtain ⟨s, -, hoffset⟩ := passes_afterString h
  rw [hoffset, byteLength_append, byteLength_cons]
  have : '"'.utf8Size = 1 := rfl
  omega

/-! ## Matching brackets -/

@[simp]
theorem closeFrom_nil : closeFrom d inner ⟨o, []⟩ = none := by
  rw [closeFrom]

theorem closeFrom_quote :
    closeFrom d inner ⟨o, '"' :: rest⟩
      = (afterString ⟨o + 1, rest⟩).bind (closeFrom d inner) := by
  rw [closeFrom, afterString]
  cases skipString (o + 1) rest <;> rfl

theorem opening_ne_quote (d : Delimiter) : d.opening ≠ '"' := by
  cases d <;> decide

theorem closing_ne_quote (d : Delimiter) : d.closing ≠ '"' := by
  cases d <;> decide

@[simp]
theorem utf8Size_opening (d : Delimiter) : d.opening.utf8Size = 1 := by
  cases d <;> rfl

@[simp]
theorem utf8Size_closing (d : Delimiter) : d.closing.utf8Size = 1 := by
  cases d <;> rfl

theorem closing_ne_opening (d : Delimiter) : d.closing ≠ d.opening := by
  cases d <;> decide

theorem closeFrom_opening :
    closeFrom d inner ⟨o, d.opening :: rest⟩ = closeFrom d (inner + 1) ⟨o + 1, rest⟩ := by
  rw [closeFrom, if_pos rfl]
  exact opening_ne_quote d

/-- The bracket that is looked for. -/
theorem closeFrom_closing_zero : closeFrom d 0 ⟨o, d.closing :: rest⟩ = some o := by
  rw [closeFrom, if_neg (closing_ne_opening d), if_pos rfl, if_pos rfl]
  exact closing_ne_quote d

theorem closeFrom_closing_succ :
    closeFrom d (inner + 1) ⟨o, d.closing :: rest⟩ = closeFrom d inner ⟨o + 1, rest⟩ := by
  rw [closeFrom, if_neg (closing_ne_opening d), if_pos rfl, if_neg (Nat.succ_ne_zero _),
    Nat.add_sub_cancel]
  exact closing_ne_quote d

theorem closeFrom_other (hquote : c ≠ '"') (hopen : c ≠ d.opening) (hclose : c ≠ d.closing) :
    closeFrom d inner ⟨o, c :: rest⟩ = closeFrom d inner ⟨o + c.utf8Size, rest⟩ := by
  rw [closeFrom, if_neg hopen, if_neg hclose]
  exact hquote

/-- At a character outside of strings the search ends or goes on behind it, whatever follows. -/
theorem closeFrom_step (d : Delimiter) (inner : Nat) (hquote : c ≠ '"') :
    (c.utf8Size = 1 ∧ ∀ o rest, closeFrom d inner ⟨o, c :: rest⟩ = some o)
      ∨ ∃ inner', ∀ o rest,
        closeFrom d inner ⟨o, c :: rest⟩ = closeFrom d inner' ⟨o + c.utf8Size, rest⟩ := by
  by_cases hopen : c = d.opening
  · subst hopen
    refine .inr ⟨inner + 1, fun o rest => ?_⟩
    rw [closeFrom_opening, utf8Size_opening]
  · by_cases hclose : c = d.closing
    · subst hclose
      cases inner with
      | zero => exact .inl ⟨utf8Size_closing d, fun o rest => closeFrom_closing_zero⟩
      | succ inner =>
        refine .inr ⟨inner, fun o rest => ?_⟩
        rw [closeFrom_closing_succ, utf8Size_closing]
    · exact .inr ⟨inner, fun o rest => closeFrom_other hquote hopen hclose⟩

/-- The bracket that is found does not lie before the place where the search began. -/
theorem offset_le_of_closeFrom {c : Cursor} {close : Nat} (h : closeFrom d inner c = some close) :
    c.offset ≤ close := by
  induction c using scanInduction generalizing inner with
  | nil o =>
    rw [closeFrom_nil] at h
    cases h
  | quote o rest ih =>
    rw [closeFrom_quote, Option.bind_eq_some_iff] at h
    obtain ⟨next, hnext, hclose⟩ := h
    have hlt := lt_offset_of_afterString hnext
    have hle := ih next hnext hclose
    dsimp only at hlt ⊢
    omega
  | other o c rest hquote ih =>
    rcases closeFrom_step d inner hquote with ⟨-, hfound⟩ | ⟨inner', hnext⟩
    · rw [hfound] at h
      exact Nat.le_of_eq (Option.some.inj h)
    · rw [hnext] at h
      exact Nat.le_trans (Nat.le_add_right _ _) (ih h)

/-- It does not lie inside the first character. -/
theorem le_of_closeFrom_cons {close : Nat} (h : closeFrom d inner ⟨o, c :: rest⟩ = some close) :
    o + c.utf8Size ≤ close + 1 := by
  by_cases hquote : c = '"'
  · subst hquote
    rw [closeFrom_quote, Option.bind_eq_some_iff] at h
    obtain ⟨next, hnext, hclose⟩ := h
    have hlt := lt_offset_of_afterString hnext
    have hle := offset_le_of_closeFrom hclose
    have hsize : '"'.utf8Size = 1 := rfl
    dsimp only at hlt
    omega
  · rcases closeFrom_step d inner hquote with ⟨hsize, hfound⟩ | ⟨inner', hnext⟩
    · rw [hfound] at h
      obtain rfl := Option.some.inj h
      omega
    · rw [hnext] at h
      exact Nat.le_succ_of_le (offset_le_of_closeFrom h)

/-! ## Keys -/

/-- Behind a key: blanks around a colon, and the opening bracket. -/
theorem keyedOpener_eq_some_iff {afterKey inside : Cursor} :
    keyedOpener d afterKey = some inside
      ↔ ∃ b₁ b₂, (∀ x ∈ b₁, isJsonBlank x = true) ∧ (∀ x ∈ b₂, isJsonBlank x = true)
          ∧ afterKey.Passes (b₁ ++ ':' :: (b₂ ++ [d.opening])) inside := by
  constructor
  · intro h
    have hblanks := Cursor.passes_skip isJsonBlank afterKey
    rw [keyedOpener, Cursor.skipBlanks] at h
    split at h
    · next here rest hcolon =>
      have hblanks' := Cursor.passes_skip isJsonBlank ⟨here + 1, rest⟩
      rw [Cursor.skipBlanks] at h
      rw [hcolon] at hblanks
      split at h
      · next here' x rest' hopen =>
        rw [hopen] at hblanks'
        split at h
        · next hx =>
          obtain rfl := Option.some.inj h
          have hbracket : Cursor.Passes ⟨here', x :: rest'⟩ [d.opening] ⟨here' + 1, rest'⟩ := by
            rw [hx]
            exact (Cursor.Passes.refl _).byte (utf8Size_opening d)
          have hvalue : Cursor.Passes ⟨here, ':' :: rest⟩ _ ⟨here' + 1, rest'⟩ :=
            (hblanks'.trans hbracket).byte rfl
          exact ⟨_, _, List.all_eq_true.1 List.all_takeWhile, List.all_eq_true.1 List.all_takeWhile,
            hblanks.trans hvalue⟩
        · cases h
      · cases h
    · cases h
  · rintro ⟨b₁, b₂, hb₁, hb₂, hrest, hoffset⟩
    obtain ⟨o, text⟩ := afterKey
    obtain ⟨o', text'⟩ := inside
    have htext : text = b₁ ++ ':' :: (b₂ ++ d.opening :: text') := by simpa using hrest
    have hplace : o' = o + byteLength b₁ + 1 + byteLength b₂ + 1 := by
      have hsize := utf8Size_opening d
      simp only [byteLength_append, byteLength_cons, byteLength_nil, hsize] at hoffset
      have hcolon : ':'.utf8Size = 1 := rfl
      omega
    have hcolon : Cursor.skipBlanks ⟨o, text⟩
        = ⟨o + byteLength b₁, ':' :: (b₂ ++ d.opening :: text')⟩ := by
      rw [htext]
      exact Cursor.skip_append hb₁ ((Cursor.stopsAt_cons _ _ _).2 rfl)
    have hopen : Cursor.skipBlanks ⟨o + byteLength b₁ + 1, b₂ ++ d.opening :: text'⟩
        = ⟨o + byteLength b₁ + 1 + byteLength b₂, d.opening :: text'⟩ :=
      Cursor.skip_append hb₂ ((Cursor.stopsAt_cons _ _ _).2 (by cases d <;> rfl))
    simp only [keyedOpener, hcolon, hopen, if_pos, hplace]

/-! ## Large arrays -/

@[simp]
theorem arraysFrom_nil : arraysFrom least ⟨o, []⟩ = [] := by
  rw [arraysFrom]

/-- The region of an array whose opening bracket was just passed and whose closing bracket lies at
    byte `close`, if it has enough elements. -/
def regionTo? (least : Nat) (inside : Cursor) (close : Nat) : Option Region :=
  if least ≤ countElements (takeBytes (close - inside.offset) inside.rest) then
    some ⟨⟨inside.offset - 1, close + 1⟩,
      .array (countElements (takeBytes (close - inside.offset) inside.rest))⟩
  else none

theorem arrayRegion?_eq (least : Nat) (c : Cursor) :
    arrayRegion? least c
      = (keyedOpener .bracket c).bind fun inside =>
          (closeFrom .bracket 0 inside).bind (regionTo? least inside) := rfl

theorem stop_of_regionTo? {inside : Cursor} {close : Nat} {r : Region}
    (h : regionTo? least inside close = some r) : r.span.stop = close + 1 := by
  rw [regionTo?] at h
  split at h
  · obtain rfl := Option.some.inj h
    rfl
  · cases h

/-- The regions from behind a string on: that of the string's value, if it is a key, and the
    others. -/
def regionsBehind (least : Nat) (next : Cursor) : List Region :=
  (arrayRegion? least next).toList ++ arraysFrom least next

theorem arraysFrom_quote :
    arraysFrom least ⟨o, '"' :: rest⟩
      = ((afterString ⟨o + 1, rest⟩).map (regionsBehind least)).getD [] := by
  rw [arraysFrom, afterString]
  cases skipString (o + 1) rest <;> rfl

theorem arraysFrom_other (hquote : c ≠ '"') :
    arraysFrom least ⟨o, c :: rest⟩ = arraysFrom least ⟨o + c.utf8Size, rest⟩ := by
  rw [arraysFrom]
  exact hquote

/-! ## The block of schemas -/

@[simp]
theorem schemasFrom_nil : schemasFrom depth ⟨o, []⟩ = none := by
  rw [schemasFrom]

/-- From behind a string on: the block of schemas that the string is the key of, or a later one. -/
def schemasBehind (depth : Nat) (isKey : Bool) (next : Cursor) : Option Region :=
  if depth = 1 ∧ isKey then
    match keyedOpener .brace next with
    | some inside => schemasRegion? inside
    | none => schemasFrom depth next
  else schemasFrom depth next

theorem schemasFrom_quote :
    schemasFrom depth ⟨o, '"' :: rest⟩
      = (afterString ⟨o + 1, rest⟩).bind (schemasBehind depth (schemasKey.isPrefixOf rest)) := by
  rw [schemasFrom, afterString]
  cases skipString (o + 1) rest <;> rfl

theorem schemasFrom_opening (hopen : c = '{' ∨ c = '[') :
    schemasFrom depth ⟨o, c :: rest⟩ = schemasFrom (depth + 1) ⟨o + 1, rest⟩ := by
  rw [schemasFrom, if_pos hopen]
  rcases hopen with rfl | rfl <;> decide

theorem schemasFrom_closing (hclose : c = '}' ∨ c = ']') :
    schemasFrom depth ⟨o, c :: rest⟩ = schemasFrom (depth - 1) ⟨o + 1, rest⟩ := by
  have hopen : ¬ (c = '{' ∨ c = '[') := by rcases hclose with rfl | rfl <;> decide
  rw [schemasFrom, if_neg hopen, if_pos hclose]
  rcases hclose with rfl | rfl <;> decide

theorem schemasFrom_other (hquote : c ≠ '"') (hopen : ¬ (c = '{' ∨ c = '['))
    (hclose : ¬ (c = '}' ∨ c = ']')) :
    schemasFrom depth ⟨o, c :: rest⟩ = schemasFrom depth ⟨o + c.utf8Size, rest⟩ := by
  rw [schemasFrom, if_neg hopen, if_neg hclose]
  exact hquote

/-- A character outside of strings changes at most the depth, whatever follows. -/
theorem schemasFrom_step (depth : Nat) (hquote : c ≠ '"') :
    ∃ depth', ∀ o rest,
      schemasFrom depth ⟨o, c :: rest⟩ = schemasFrom depth' ⟨o + c.utf8Size, rest⟩ := by
  by_cases hopen : c = '{' ∨ c = '['
  · refine ⟨depth + 1, fun o rest => ?_⟩
    have hsize : c.utf8Size = 1 := by rcases hopen with rfl | rfl <;> rfl
    rw [schemasFrom_opening hopen, hsize]
  · by_cases hclose : c = '}' ∨ c = ']'
    · refine ⟨depth - 1, fun o rest => ?_⟩
      have hsize : c.utf8Size = 1 := by rcases hclose with rfl | rfl <;> rfl
      rw [schemasFrom_closing hclose, hsize]
    · exact ⟨depth, fun o rest => schemasFrom_other hquote hopen hclose⟩

end BimEditor.Scan
