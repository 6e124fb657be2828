/-
  BimEditor.Proofs.Scan.Nesting

  The regions of large arrays in any text, valid or not. Every search for a closing bracket begins
  at a place of its own; what makes the regions fit together is that all of them see the same
  string literals.

    * `Quoting` reads a text from left to right and knows at each place whether it lies in a string
      literal; `Cursor.Clears` says that a piece of text leads from outside to outside.
    * A search that begins outside ends outside (`clears_closeFrom`), and it comes by every place
      outside of literals before its end (`closeFrom_of_clears`).
    * With more brackets open, a search ends later (`closeFrom_lt_closeFrom`).

  So a region that begins inside another one also ends there (`arrayRegions_nested`).
-/
import BimEditor.Proofs.Json.SpanOrder
import BimEditor.Proofs.Scan.ArrayFolding
import BimEditor.Proofs.Scan.Stability

namespace BimEditor

open BimEditor.Text BimEditor.Json BimEditor.Scan

/-! ## String literals -/

/-- Where a place of a text lies with regard to its string literals. -/
inductive Scan.Quoting where
  | outside
  | inside
  /-- Inside, right behind a backslash that counts. -/
  | hidden
deriving DecidableEq, Repr

/-- The place behind one more character. A quote opens or closes a literal, unless a backslash
    hides it. -/
def Scan.Quoting.step : Quoting → Char → Quoting
  | .outside, c => if c = '"' then .inside else .outside
  | .inside, c => if c = '"' then .outside else if c = '\\' then .hidden else .inside
  | .hidden, _ => .inside

/-- The character `c` stands at byte `offset` of the text, and in none of its string literals. -/
def Scan.StandsOutside (text : List Char) (offset : Nat) (c : Char) : Prop :=
  ∃ before after, text = before ++ c :: after ∧ byteLength before = offset
    ∧ before.foldl Quoting.step .outside = .outside

/-- From outside of string literals, the text up to `e` leads outside again. -/
def Text.Cursor.Clears (c e : Cursor) : Prop :=
  ∃ s, c.Passes s e ∧ s.foldl Quoting.step .outside = .outside

/-- A piece that is passed begins with the character that comes first. -/
theorem Text.Cursor.Passes.tail {o : Nat} {x y : Char} {s rest : List Char} {e : Cursor}
    (h : Cursor.Passes ⟨o, y :: rest⟩ (x :: s) e) :
    x = y ∧ Cursor.Passes ⟨o + y.utf8Size, rest⟩ s e := by
  obtain ⟨hrest, hoffset⟩ := h
  obtain ⟨rfl, htail⟩ := List.cons.inj hrest
  refine ⟨rfl, htail, ?_⟩
  rw [hoffset, byteLength_cons, Nat.add_assoc]

namespace Text.Cursor.Clears

variable {o : Nat} {x : Char} {rest : List Char} {c e e' : Cursor}

theorem refl (c : Cursor) : c.Clears c :=
  ⟨[], .refl c, rfl⟩

theorem trans (h : c.Clears e) (h' : e.Clears e') : c.Clears e' := by
  obtain ⟨s, hpass, hs⟩ := h
  obtain ⟨s', hpass', hs'⟩ := h'
  refine ⟨s ++ s', hpass.trans hpass', ?_⟩
  rw [List.foldl_append, hs, hs']

theorem offset_le (h : c.Clears e) : c.offset ≤ e.offset := by
  obtain ⟨s, ⟨-, hoffset⟩, -⟩ := h
  omega

/-- A text without quotes holds no literals. -/
theorem of_passes {s : List Char} (h : c.Passes s e) (hs : '"' ∉ s) : c.Clears e := by
  refine ⟨s, h, ?_⟩
  clear h
  induction s with
  | nil => rfl
  | cons x s ih =>
    rw [List.mem_cons, not_or] at hs
    rw [List.foldl_cons, Quoting.step, if_neg (Ne.symm hs.1), ih hs.2]

theorem other (hquote : x ≠ '"') : Clears ⟨o, x :: rest⟩ ⟨o + x.utf8Size, rest⟩ :=
  of_passes (Passes.refl _).cons (by simp [Ne.symm hquote])

/-- Of two places outside of literals, the text between them leads from one to the other. -/
theorem of_offset_le (h : c.Clears e) (h' : c.Clears e') (hle : e.offset ≤ e'.offset) :
    e.Clears e' := by
  obtain ⟨s, ⟨hrest, hoffset⟩, hs⟩ := h
  obtain ⟨s', ⟨hrest', hoffset'⟩, hs'⟩ := h'
  -- the shorter of the two pieces is the beginning of the longer one
  obtain ⟨u, rfl⟩ : s <+: s' := by
    have hcut : takeBytes (byteLength s) (s' ++ e'.rest) <+: s' :=
      takeBytes_append_isPrefix (by omega)
    rwa [← hrest', hrest, takeBytes_append] at hcut
  refine ⟨u, ⟨?_, ?_⟩, ?_⟩
  · rw [hrest, List.append_assoc] at hrest'
    exact List.append_cancel_left hrest'
  · rw [byteLength_append] at hoffset'
    omega
  · rwa [List.foldl_append, hs] at hs'

end Text.Cursor.Clears

/-! ## Literals are skipped as they are read -/

namespace Scan

variable {o inner inner' close close' : Nat} {x : Char} {rest : List Char} {d : Delimiter}
  {c e next : Cursor}

/-- Skipping a literal leads outside. -/
theorem foldl_step_afterString (h : afterString c = some next) :
    ∃ s, c.Passes s next ∧ s.foldl Quoting.step .inside = .outside := by
  induction c using stringInduction with
  | nil o => cases h
  | quote o rest =>
    obtain rfl := Option.some.inj h
    exact ⟨['"'], (Cursor.Passes.refl _).byte rfl, rfl⟩
  | lastSlash o => cases h
  | slash o x rest ih =>
    rw [afterString_slash] at h
    obtain ⟨s, hpass, hs⟩ := ih h
    have hhidden : Cursor.Passes ⟨o + 1, x :: rest⟩ (x :: s) next := hpass.cons
    exact ⟨'\\' :: x :: s, hhidden.byte rfl, hs⟩
  | other o x rest hquote hslash ih =>
    rw [afterString_other hquote hslash] at h
    obtain ⟨s, hpass, hs⟩ := ih h
    refine ⟨x :: s, hpass.cons, ?_⟩
    rw [List.foldl_cons, Quoting.step, if_neg hquote, if_neg hslash, hs]

theorem clears_afterString (h : afterString ⟨o + 1, rest⟩ = some next) :
    Cursor.Clears ⟨o, '"' :: rest⟩ next := by
  obtain ⟨s, hpass, hs⟩ := foldl_step_afterString h
  exact ⟨'"' :: s, hpass.byte rfl, hs⟩

/-- A place outside that lies behind the beginning of a literal lies behind its end. -/
theorem exists_afterString {s : List Char} (hpass : c.Passes s e)
    (hs : s.foldl Quoting.step .inside = .outside) :
    ∃ next, afterString c = some next ∧ next.Clears e := by
  induction c using stringInduction generalizing s with
  | nil o =>
    obtain ⟨rfl, -⟩ := List.append_eq_nil_iff.1 hpass.1.symm
    cases hs
  | quote o rest =>
    cases s with
    | nil => cases hs
    | cons x s =>
      obtain ⟨rfl, htail⟩ := hpass.tail
      exact ⟨_, rfl, s, htail, hs⟩
  | lastSlash o =>
    cases s with
    | nil => cases hs
    | cons x s =>
      obtain ⟨rfl, htail⟩ := hpass.tail
      obtain ⟨rfl, -⟩ := List.append_eq_nil_iff.1 htail.1.symm
      cases hs
  | slash o x rest ih =>
    rw [afterString_slash]
    -- one character alone leads to the place that it hides
    cases s with
    | nil => cases hs
    | cons y s =>
      obtain ⟨rfl, htail⟩ := hpass.tail
      cases s with
      | nil => cases hs
      | cons y s =>
        obtain ⟨rfl, htail⟩ := htail.tail
        exact ih htail hs
  | other o x rest hquote hslash ih =>
    rw [afterString_other hquote hslash]
    cases s with
    | nil => cases hs
    | cons y s =>
      obtain ⟨rfl, htail⟩ := hpass.tail
      rw [List.foldl_cons, Quoting.step, if_neg hquote, if_neg hslash] at hs
      exact ih htail hs

/-- The places outside that follow a quote: the quote itself, and those behind its literal. -/
theorem clears_quote (h : Cursor.Clears ⟨o, '"' :: rest⟩ e) :
    e = ⟨o, '"' :: rest⟩ ∨ ∃ next, afterString ⟨o + 1, rest⟩ = some next ∧ next.Clears e := by
  obtain ⟨s, hpass, hs⟩ := h
  cases s with
  | nil => exact .inl ((Cursor.Passes.refl _).unique hpass).symm
  | cons x s =>
    obtain ⟨rfl, htail⟩ := hpass.tail
    exact .inr (exists_afterString htail hs)

theorem clears_other (hquote : x ≠ '"') (h : Cursor.Clears ⟨o, x :: rest⟩ e) :
    e = ⟨o, x :: rest⟩ ∨ Cursor.Clears ⟨o + x.utf8Size, rest⟩ e := by
  obtain ⟨s, hpass, hs⟩ := h
  cases s with
  | nil => exact .inl ((Cursor.Passes.refl _).unique hpass).symm
  | cons y s =>
    obtain ⟨rfl, htail⟩ := hpass.tail
    rw [List.foldl_cons, Quoting.step, if_neg hquote] at hs
    exact .inr ⟨s, htail, hs⟩

/-! ## The search for a closing bracket -/

/-- At a character outside of literals the search ends, if that is a closing bracket, or goes on
    behind it. -/
theorem closeFrom_cases (hquote : x ≠ '"')
    (h : closeFrom d inner ⟨o, x :: rest⟩ = some close) :
    x = d.closing ∧ close = o
      ∨ ∃ inner', closeFrom d inner' ⟨o + x.utf8Size, rest⟩ = some close := by
  by_cases hopen : x = d.opening
  · subst hopen
    rw [closeFrom_opening, ← utf8Size_opening d] at h
    exact .inr ⟨_, h⟩
  · by_cases hshut : x = d.closing
    · subst hshut
      cases inner with
      | zero =>
        rw [closeFrom_closing_zero] at h
        exact .inl ⟨rfl, (Option.some.inj h).symm⟩
      | succ inner =>
        rw [closeFrom_closing_succ, ← utf8Size_closing d] at h
        exact .inr ⟨_, h⟩
    · rw [closeFrom_other hquote hopen hshut] at h
      exact .inr ⟨_, h⟩

/-- A search that begins outside of literals ends there, at a closing bracket. -/
theorem clears_closeFrom (h : closeFrom d inner c = some close) :
    ∃ after, c.Clears ⟨close, d.closing :: after⟩ := by
  induction c using scanInduction generalizing inner with
  | nil o =>
    rw [closeFrom_nil] at h
    cases h
  | quote o rest ih =>
    rw [closeFrom_quote, Option.bind_eq_some_iff] at h
    obtain ⟨next, hnext, hclose⟩ := h
    obtain ⟨after, hclears⟩ := ih next hnext hclose
    exact ⟨after, (clears_afterString hnext).trans hclears⟩
  | other o x rest hquote ih =>
    rcases closeFrom_cases hquote h with ⟨rfl, rfl⟩ | ⟨inner', hclose⟩
    · exact ⟨rest, .refl _⟩
    · obtain ⟨after, hclears⟩ := ih hclose
      exact ⟨after, (Cursor.Clears.other hquote).trans hclears⟩

/-- A search comes by every place outside of literals that lies before its end. -/
theorem closeFrom_of_clears (h : c.Clears e) (hclose : closeFrom d inner c = some close)
    (hle : e.offset ≤ close) : ∃ inner', closeFrom d inner' e = some close := by
  induction c using scanInduction generalizing inner with
  | nil o =>
    rw [closeFrom_nil] at hclose
    cases hclose
  | quote o rest ih =>
    rcases clears_quote h with rfl | ⟨next, hnext, hclears⟩
    · exact ⟨inner, hclose⟩
    · rw [closeFrom_quote, hnext, Option.bind_some] at hclose
      exact ih next hnext hclears hclose
  | other o x rest hquote ih =>
    rcases clears_other hquote h with rfl | hclears
    · exact ⟨inner, hclose⟩
    · rcases closeFrom_cases hquote hclose with ⟨-, rfl⟩ | ⟨inner', hnext⟩
      · -- the search would have ended before that place
        have hpos := x.utf8Size_pos
        have hoffset := hclears.offset_le
        dsimp only at hoffset
        omega
      · exact ih hclears hnext

/-- With more brackets open a search ends later. -/
theorem closeFrom_lt_closeFrom (h : closeFrom d inner c = some close)
    (h' : closeFrom d inner' c = some close') (hlt : inner < inner') : close < close' := by
  induction c using scanInduction generalizing inner inner' with
  | nil o =>
    rw [closeFrom_nil] at h
    cases h
  | quote o rest ih =>
    rw [closeFrom_quote, Option.bind_eq_some_iff] at h h'
    obtain ⟨next, hnext, hclose⟩ := h
    obtain ⟨next', hnext', hclose'⟩ := h'
    obtain rfl := Option.some.inj (hnext.symm.trans hnext')
    exact ih next hnext hclose hclose' hlt
  | other o x rest hquote ih =>
    by_cases hopen : x = d.opening
    · subst hopen
      rw [utf8Size_opening] at ih
      rw [closeFrom_opening] at h h'
      exact ih h h' (Nat.succ_lt_succ hlt)
    · by_cases hshut : x = d.closing
      · subst hshut
        obtain ⟨more, rfl⟩ := Nat.exists_eq_succ_of_ne_zero (Nat.ne_zero_of_lt hlt)
        rw [closeFrom_closing_succ] at h'
        cases inner with
        | zero =>
          -- the one search ends here, the other one goes on
          rw [closeFrom_closing_zero] at h
          obtain rfl := Option.some.inj h
          exact offset_le_of_closeFrom h'
        | succ inner =>
          rw [utf8Size_closing] at ih
          rw [closeFrom_closing_succ] at h
          exact ih h h' (Nat.lt_of_succ_lt_succ hlt)
      · rw [closeFrom_other hquote hopen hshut] at h h'
        exact ih h h' hlt

/-! ## Regions -/

/-- A region from a bracket outside of literals to the bracket that closes it. -/
def Opens (c : Cursor) (r : Region) : Prop :=
  ∃ here inside close, c.Clears ⟨here, '[' :: inside⟩
    ∧ closeFrom .bracket 0 ⟨here + 1, inside⟩ = some close ∧ r.span = ⟨here, close + 1⟩

variable {least : Nat} {r r' : Region}

theorem Opens.of_clears (h : c.Clears e) (hr : Opens e r) : Opens c r := by
  obtain ⟨here, inside, close, hclears, hclose, hspan⟩ := hr
  exact ⟨here, inside, close, h.trans hclears, hclose, hspan⟩

theorem Opens.offset_le (h : Opens c r) : c.offset ≤ r.span.start := by
  obtain ⟨here, inside, close, hclears, -, hspan⟩ := h
  rw [hspan]
  exact hclears.offset_le

/-- Between a key and the bracket behind it lie no literals. -/
theorem passes_keyedOpener (h : keyedOpener d c = some e) :
    ∃ here s, c.Passes s ⟨here, d.opening :: e.rest⟩ ∧ '"' ∉ s ∧ e.offset = here + 1 := by
  obtain ⟨b₁, b₂, hb₁, hb₂, hrest, hoffset⟩ := keyedOpener_eq_some_iff.1 h
  have hblank : ∀ b : List Char, (∀ x ∈ b, isJsonBlank x = true) → '"' ∉ b :=
    fun b hb hmem => absurd (hb _ hmem) (by decide)
  refine ⟨c.offset + byteLength (b₁ ++ ':' :: b₂), b₁ ++ ':' :: b₂, ⟨?_, rfl⟩, ?_, ?_⟩
  · rw [hrest]
    simp
  · simp [hblank b₁ hb₁, hblank b₂ hb₂]
  · simp only [byteLength_append, byteLength_cons, byteLength_nil, utf8Size_opening] at hoffset ⊢
    omega

/-- The region of a key's value begins at the bracket behind the key and ends where the search for
    its closing bracket ends. -/
theorem arrayRegion?_cases (h : arrayRegion? least c = some r) :
    ∃ here inside close s, c.Passes s ⟨here, '[' :: inside⟩ ∧ '"' ∉ s
      ∧ closeFrom .bracket 0 ⟨here + 1, inside⟩ = some close ∧ r.span = ⟨here, close + 1⟩ := by
  rw [arrayRegion?_eq, Option.bind_eq_some_iff] at h
  obtain ⟨inside, hinside, h⟩ := h
  obtain ⟨close, hclose, hregion⟩ := Option.bind_eq_some_iff.1 h
  obtain ⟨here, s, hpass, hs, hoffset⟩ := passes_keyedOpener hinside
  refine ⟨here, inside.rest, close, s, hpass, hs, ?_, ?_⟩
  · rw [← hoffset]
    exact hclose
  · rw [regionTo?] at hregion
    split at hregion
    · obtain rfl := Option.some.inj hregion
      rw [hoffset, Nat.add_sub_cancel]
    · cases hregion

/-- Every region that is found is one from a bracket to the bracket that closes it. -/
theorem opens_of_mem (h : r ∈ arraysFrom least c) : Opens c r := by
  induction c using scanInduction with
  | nil o =>
    rw [arraysFrom_nil] at h
    cases h
  | quote o rest ih =>
    obtain ⟨next, hnext, hr⟩ := mem_arraysFrom_quote.1 h
    refine Opens.of_clears (clears_afterString hnext) ?_
    rcases mem_regionsBehind.1 hr with hregion | hlater
    · obtain ⟨here, inside, close, s, hpass, hs, hclose, hspan⟩ := arrayRegion?_cases hregion
      exact ⟨here, inside, close, .of_passes hpass hs, hclose, hspan⟩
    · exact ih next hnext hlater
  | other o x rest hquote ih =>
    rw [arraysFrom_other hquote] at h
    exact (ih h).of_clears (.other hquote)

/-- The region of a key begins before those that are found behind the key. -/
theorem start_lt_of_arrayRegion? (h : arrayRegion? least c = some r)
    (h' : r' ∈ arraysFrom least c) : r.span.start < r'.span.start := by
  obtain ⟨here, inside, close, s, ⟨hrest, hoffset⟩, hs, -, hspan⟩ := arrayRegion?_cases h
  obtain ⟨o, text⟩ := c
  dsimp only at hrest hoffset
  -- up to the bracket nothing is found
  rw [hrest, arraysFrom_append hs, ← hoffset, arraysFrom_other (by decide)] at h'
  have hle := (opens_of_mem h').offset_le
  rw [hspan]
  exact hle

/-- The regions are found in the order of their opening brackets. -/
theorem arraysFrom_pairwise (least : Nat) (c : Cursor) :
    (arraysFrom least c).Pairwise fun r r' => r.span.start < r'.span.start := by
  induction c using scanInduction with
  | nil o =>
    rw [arraysFrom_nil]
    exact .nil
  | quote o rest ih =>
    rw [arraysFrom_quote]
    cases hnext : afterString ⟨o + 1, rest⟩ with
    | none => exact .nil
    | some next =>
      show (regionsBehind least next).Pairwise _
      rw [regionsBehind]
      cases hregion : arrayRegion? least next with
      | none => exact ih next hnext
      | some r =>
        exact List.pairwise_cons.2
          ⟨fun r' hr' => start_lt_of_arrayRegion? hregion hr', ih next hnext⟩
  | other o x rest hquote ih =>
    rw [arraysFrom_other hquote]
    exact ih

/-- A region that begins inside another one ends inside of it. -/
theorem Opens.nested (h : Opens c r) (h' : Opens c r') (hlt : r.span.start < r'.span.start) :
    r.span.stop ≤ r'.span.start ∨ r'.span.Inside r.span := by
  obtain ⟨here, inside, close, hclears, hclose, hspan⟩ := h
  obtain ⟨here', inside', close', hclears', hclose', hspan'⟩ := h'
  rw [hspan, hspan'] at hlt ⊢
  dsimp only at hlt ⊢
  by_cases hle : close < here'
  · exact .inl hle
  · -- the search from the outer bracket comes by the inner one
    have hinside : Cursor.Clears ⟨here + 1, inside⟩ ⟨here', '[' :: inside'⟩ :=
      (hclears.trans (.other (by decide))).of_offset_le hclears' hlt
    obtain ⟨inner, hinner⟩ := closeFrom_of_clears hinside hclose (Nat.le_of_not_lt hle)
    have hopened : closeFrom .bracket (inner + 1) ⟨here' + 1, inside'⟩ = some close :=
      closeFrom_opening.symm.trans hinner
    have hclosed := closeFrom_lt_closeFrom hclose' hopened (Nat.succ_pos inner)
    exact .inr ⟨Nat.le_of_lt hlt, Nat.succ_le_succ (Nat.le_of_lt hclosed)⟩

theorem standsOutside_of_clears {text : List Char}
    (h : (Cursor.atStart text).Clears ⟨o, x :: rest⟩) : StandsOutside text o x := by
  obtain ⟨before, ⟨htext, hoffset⟩, hs⟩ := h
  exact ⟨before, rest, htext, (Nat.zero_add _).symm.trans hoffset.symm, hs⟩

/-- In any text, the regions of large arrays come in the order in which they begin. Each goes from an
    opening to a closing bracket, neither of them in a string literal; and any two of them are
    apart, or one lies inside the other. -/
theorem arrayRegions_nested (least : Nat) (text : List Char) :
    (arrayRegions least text).Pairwise (fun r r' => r.span.start < r'.span.start)
      ∧ (∀ r ∈ arrayRegions least text, StandsOutside text r.span.start '['
          ∧ ∃ close, r.span.start < close ∧ r.span.stop = close + 1
            ∧ StandsOutside text close ']')
      ∧ ∀ r ∈ arrayRegions least text, ∀ r' ∈ arrayRegions least text,
          r.span.stop ≤ r'.span.start ∨ r'.span.stop ≤ r.span.start
            ∨ r.span.Inside r'.span ∨ r'.span.Inside r.span := by
  have hordered := arraysFrom_pairwise least (Cursor.atStart text)
  refine ⟨hordered, ?_, ?_⟩
  · intro r hr
    obtain ⟨here, inside, close, hclears, hclose, hspan⟩ := opens_of_mem hr
    obtain ⟨after, hafter⟩ := clears_closeFrom hclose
    have hopened : (Cursor.atStart text).Clears ⟨here + 1, inside⟩ :=
      hclears.trans (.other (by decide))
    rw [hspan]
    exact ⟨standsOutside_of_clears hclears, close, offset_le_of_closeFrom hclose, rfl,
      standsOutside_of_clears (hopened.trans hafter)⟩
  · intro r hr r' hr'
    rcases eq_or_rel_of_pairwise hordered hr hr' with rfl | hlt | hlt
    · exact .inr (.inr (.inl ⟨Nat.le_refl _, Nat.le_refl _⟩))
    · rcases (opens_of_mem hr).nested (opens_of_mem hr') hlt with hapart | hinside
      · exact .inl hapart
      · exact .inr (.inr (.inr hinside))
    · rcases (opens_of_mem hr').nested (opens_of_mem hr) hlt with hapart | hinside
      · exact .inr (.inl hapart)
      · exact .inr (.inr (.inl hinside))

/-- A text in the middle of an edit, with an array inside another one that has a bracket and a
    quote in a string, one with a stray brace, and one that is not closed. -/
def midEdit : List Char :=
  "\x7b\"a\":[\"]\\\"\",\x7b\"b\" :[1 2]\x7d],\"c\":[\x7d],\"d\":[,".toList

theorem arrayRegions_nested_midEdit :
    arrayRegions 1 midEdit
        = [⟨⟨5, 25⟩, .array 2⟩, ⟨⟨18, 23⟩, .array 1⟩, ⟨⟨30, 33⟩, .array 1⟩]
      ∧ StandsOutside midEdit 5 '[' ∧ StandsOutside midEdit 24 ']'
      ∧ Span.Inside ⟨18, 23⟩ ⟨5, 25⟩ := by
  have hregions : arrayRegions 1 midEdit
      = [⟨⟨5, 25⟩, .array 2⟩, ⟨⟨18, 23⟩, .array 1⟩, ⟨⟨30, 33⟩, .array 1⟩] := by
    decide +kernel
  obtain ⟨-, houtside, hnested⟩ := arrayRegions_nested 1 midEdit
  rw [hregions] at houtside hnested
  obtain ⟨hopen, close, -, hstop, hclose⟩ := houtside _ (.head _)
  obtain rfl : close = 24 := (Nat.succ.inj hstop).symm
  refine ⟨hregions, hopen, hclose, ?_⟩
  rcases hnested _ (.head _) _ (.tail _ (.head _)) with h | h | h | h
  · exact absurd h (by decide)
  · exact absurd h (by decide)
  · exact absurd h (by decide)
  · exact h

end Scan

end BimEditor
