/-
  BimEditor.Proofs.Json.TokenFaults

  Where the readers of tokens get stuck. A reader that fails has come to some place of the text: up
  to there a token may still be completed, and with the character at that place no text is read any
  more, whatever follows (`Refuses`). The fault is reported at that place or where the part of the
  token starts that was being read (`escape_stuck`, `stringBody_stuck`, `word_stuck`,
  `numeral_stuck`).
-/
import BimEditor.Proofs.Json.FaultPlace
import BimEditor.Proofs.Json.Lookahead

namespace BimEditor.Json

open BimEditor.Numeric BimEditor.Text

/-! ## Refusals -/

/-- With the character behind `u`, the first one of `rest`, the reader yields nothing, whatever
    follows. -/
def Refuses {α : Type} (f : (c : Cursor) → Outcome α c) (o : Nat) (u rest : List Char) : Prop :=
  ∀ x ∈ rest.head?, ∀ y a d, ¬ Yields (f ⟨o, u ++ x :: y⟩) a d

theorem refuses_nil {α : Type} (f : (c : Cursor) → Outcome α c) (o : Nat) (u : List Char) :
    Refuses f o u [] := by
  intro x hx
  cases hx

theorem not_yields_error {α : Type} {c d : Cursor} {a : α} {e : Fault} :
    ¬ Yields (.error e : Outcome α c) a d := by
  rintro ⟨_, heq⟩
  cases heq

/-- Every text has a longest beginning with a property, if the empty one has it. -/
theorem exists_longest {P : List Char → Prop} (h : P []) (s : List Char) :
    ∃ u rest, s = u ++ rest ∧ P u ∧ ∀ x ∈ rest.head?, ¬ P (u ++ [x]) := by
  induction s generalizing P with
  | nil => exact ⟨[], [], rfl, h, fun x hx => nomatch hx⟩
  | cons c s ih =>
    by_cases hc : P [c]
    · obtain ⟨u, rest, rfl, hu, hrest⟩ := @ih (fun v => P (c :: v)) hc
      exact ⟨c :: u, rest, rfl, hu, hrest⟩
    · refine ⟨[], c :: s, rfl, h, ?_⟩
      rintro x ⟨⟩
      exact hc

/-- A reader of tokens that fails refuses what is no longer the beginning of one. -/
theorem refuses_of_longest {α : Type} {f : (c : Cursor) → Outcome α c} {o : Nat}
    {u rest : List Char} {P : List Char → Prop}
    (hP : ∀ s a d, Yields (f ⟨o, s⟩) a d → ∃ q, s = q ++ d.rest ∧ P q)
    (hyields : ∀ q t, P q → ∃ a d, Yields (f ⟨o, q ++ t⟩) a d)
    (hfail : ∀ a d, ¬ Yields (f ⟨o, u ++ rest⟩) a d)
    (hrest : ∀ x ∈ rest.head?, ¬ ∃ r, P (u ++ [x] ++ r)) : Refuses f o u rest := by
  intro x hx y a d hread
  obtain ⟨q, hq, hPq⟩ := hP _ _ _ hread
  rcases List.append_eq_append_iff.1 hq with ⟨m, rfl, hm⟩ | ⟨m, rfl, hm⟩
  · cases m with
    | nil =>
      rw [List.append_nil] at hPq
      obtain ⟨a', d', hread'⟩ := hyields u rest hPq
      exact hfail a' d' hread'
    | cons z m =>
      -- the token goes on with the character behind `u`
      obtain ⟨rfl, -⟩ := List.cons.inj hm
      refine hrest x hx ⟨m, ?_⟩
      rwa [List.append_assoc]
  · obtain ⟨a', d', hread'⟩ := hyields q (m ++ rest) hPq
    rw [← List.append_assoc] at hread'
    exact hfail a' d' hread'

/-! ## Escapes -/

/-- Some escape starts with the backslash and `v`. -/
def StartsEscape (v : List Char) : Prop :=
  ∃ r c, Character ('\\' :: (v ++ r)) c

theorem StartsEscape.of_append {s t : List Char} (h : StartsEscape (s ++ t)) : StartsEscape s := by
  obtain ⟨r, c, h⟩ := h
  refine ⟨t ++ r, c, ?_⟩
  rwa [← List.append_assoc]

theorem startsEscape_nil : StartsEscape [] :=
  ⟨['n'], '\n', .letter (by decide)⟩

theorem startsEscape_u : StartsEscape ['u'] := by
  have hcode : HexCode ['0', '0', '0', '0'] 0 :=
    hexCode_iff.2 ⟨'0', '0', '0', '0', rfl, by decide, by decide⟩
  exact ⟨['0', '0', '0', '0'], Char.ofNat 0, .code hcode⟩

/-- Behind a high surrogate a low one may follow. -/
theorem startsEscape_pair {hs : List Char} {high : Nat} (h : HexCode hs high)
    (hhigh : isHighSurrogate high = true) : StartsEscape ('u' :: (hs ++ ['\\', 'u'])) := by
  have hlow : HexCode ['D', 'C', '0', '0'] 0xDC00 :=
    hexCode_iff.2 ⟨'D', 'C', '0', '0', rfl, by decide, by decide⟩
  simp only [isHighSurrogate, Bool.and_eq_true, decide_eq_true_eq] at hhigh
  obtain ⟨hle, hlt⟩ := hhigh
  have hvalid : (0x10000 + (high - 0xD800) * 0x400).isValidChar := by
    unfold Nat.isValidChar
    omega
  refine ⟨['D', 'C', '0', '0'], Char.ofNat (0x10000 + (high - 0xD800) * 0x400), ?_⟩
  have hcode : (Char.ofNat (0x10000 + (high - 0xD800) * 0x400)).toNat
      = 0x10000 + (high - 0xD800) * 0x400 + (0xDC00 - 0xDC00) := by
    rw [Nat.sub_self, Nat.add_zero, toNat_ofNat hvalid]
  simpa using Character.pair h hle hlt hlow (Nat.le_refl _) (by decide) hcode

/-- Every escape that starts with `\u` has four digits behind that. -/
theorem Character.digits_of_u {w : List Char} {c : Char} (h : Character ('\\' :: 'u' :: w) c) :
    ∃ ds e code, w = ds ++ e ∧ HexCode ds code := by
  cases h with
  | letter htable =>
    have hletters : ∀ x ∈ escapeTable, x.1 ≠ 'u' := by decide
    exact absurd rfl (hletters _ htable)
  | code hcode => exact ⟨w, [], _, (List.append_nil _).symm, hcode⟩
  | @pair hs ls _ _ _ hcode _ _ _ _ _ _ => exact ⟨hs, '\\' :: 'u' :: ls, _, rfl, hcode⟩

/-- An escape that goes on behind its digits has four more of them. -/
theorem Character.digits_of_pair {hs w : List Char} {high : Nat} {c : Char} (hhs : HexCode hs high)
    (h : Character ('\\' :: 'u' :: (hs ++ '\\' :: 'u' :: w)) c) : ∃ code, HexCode w code := by
  have hlength : ∀ {ds code}, HexCode ds code → ds.length = 4 := by
    rintro _ _ ⟨⟩
    rfl
  generalize htext : hs ++ '\\' :: 'u' :: w = text at h
  cases h with
  | letter htable =>
    have hletters : ∀ x ∈ escapeTable, x.1 ≠ 'u' := by decide
    exact absurd rfl (hletters _ htable)
  | @code ds _ hcode =>
    have := congrArg List.length htext
    rw [hlength hcode, List.length_append, hlength hhs] at this
    simp at this
  | @pair hs' ls _ low _ hcode _ _ hcode' _ _ _ =>
    obtain ⟨rfl, hrest⟩ := List.append_inj htext ((hlength hhs).trans (hlength hcode).symm)
    obtain rfl : w = ls := by simpa using hrest
    exact ⟨low, hcode'⟩

/-- The second half of an escape fails where the escape starts, or at four digits behind `\u`. -/
theorem lowHalf_error {start high : Nat} {c : Cursor} {e : Fault}
    (h : lowHalf start high c = .error e) :
    e.offset? = some start ∨ ∃ t, c.rest = '\\' :: 'u' :: t ∧ e.offset? = some (c.offset + 2) := by
  unfold lowHalf at h
  split at h
  · next _ here rest =>
    rcases bind_eq_error h with hhex | ⟨⟨low, next, hlt⟩, _, h⟩
    · exact .inr ⟨rest, rfl, hexCode_error hhex⟩
    · dsimp only at h
      split at h
      · replace h := first_eq_error h fun _ => ⟨_, rfl⟩
        exact .inl (codeChar_error h)
      · cases h
        exact .inl rfl
  · cases h
    exact .inl rfl

/-- An escape fails where it starts, or at four digits that are missing behind one of its `\u`. -/
theorem unicodeEscape_error {start o : Nat} {s : List Char} {e : Fault}
    (h : unicodeEscape start ⟨o, s⟩ = .error e) :
    e.offset? = some start ∨ (e.offset? = some o ∧ ∃ e', hexCode ⟨o, s⟩ = .error e')
      ∨ ∃ hs high t, s = hs ++ '\\' :: 'u' :: t ∧ HexCode hs high ∧ isHighSurrogate high = true
          ∧ e.offset? = some (o + 6) := by
  unfold unicodeEscape at h
  rcases bind_eq_error h with hhex | ⟨⟨code, next, hlt⟩, hhex, h⟩
  · exact .inr (.inl ⟨hexCode_error hhex, e, hhex⟩)
  · have hensures := hexCode_ensures ⟨o, s⟩
    rw [hhex] at hensures
    obtain ⟨hs, ⟨hrest, hoffset⟩, hcode⟩ := hensures.of_ok
    dsimp only at h hrest hoffset hcode
    split at h
    · next hhigh =>
      replace h := first_eq_error h fun _ => ⟨_, rfl⟩
      rcases lowHalf_error h with h | ⟨t, ht, h⟩
      · exact .inl h
      · rw [ht] at hrest
        rw [hoffset, byteLength_hexCode hcode] at h
        exact .inr (.inr ⟨hs, code, t, hrest, hcode, hhigh, h⟩)
    · replace h := first_eq_error h fun _ => ⟨_, rfl⟩
      exact .inl (codeChar_error h)

theorem escape_error {start o : Nat} {s : List Char} {e : Fault}
    (h : escape start ⟨o, s⟩ = .error e) :
    e.offset? = some start ∨ ∃ t, s = 'u' :: t ∧ unicodeEscape start ⟨o + 1, t⟩ = .error e := by
  cases s with
  | nil =>
    cases h
    exact .inl rfl
  | cons x s =>
    by_cases hx : x = 'u'
    · subst hx
      rw [escape] at h
      replace h := first_eq_error h fun _ => ⟨_, rfl⟩
      exact .inr ⟨s, rfl, h⟩
    · rw [escape] at h
      · split at h
        · cases h
        · cases h
          exact .inl rfl
      · exact hx

/-- Behind `u`, which starts at byte `o`, a part of the string `k` is not complete yet, and the fault
    is reported where that part starts. -/
def Fault.PointsInPart (o : Nat) (u k : List Char) (e : Fault) : Prop :=
  ∃ before piece, before <+: u ∧ e.offset? = some (o + byteLength before)
    ∧ StringPart k (byteLength before) piece ∧ byteLength u < byteLength before + byteLength piece

theorem byteLength_pos {s : List Char} (h : s ≠ []) : 0 < byteLength s := by
  cases s with
  | nil => exact absurd rfl h
  | cons c s =>
    have hpos := c.utf8Size_pos
    rw [byteLength_cons]
    omega

theorem stringPart_escape {e : List Char} {c : Char} (h : Character ('\\' :: e) c) :
    StringPart ('\\' :: e) 0 ('\\' :: e) := by
  simpa using StringPart.escape .nil h .nil

/-- Four digits that are missing behind the first `\u` start where they should stand. -/
theorem points_firstDigits {here : Nat} {v rest r : List Char} {c : Char} {e e' : Fault}
    (hhex : hexCode ⟨here + 2, v ++ rest⟩ = .error e') (hoffset : e.offset? = some (here + 2))
    (hchar : Character ('\\' :: ('u' :: v ++ r)) c) :
    e.PointsInPart here ('\\' :: 'u' :: v) ('\\' :: ('u' :: v ++ r)) := by
  rw [List.cons_append] at hchar ⊢
  obtain ⟨ds, e₂, code, hds, hcode⟩ := hchar.digits_of_u
  rw [hds] at hchar
  refine ⟨['\\', 'u'], ds, ⟨v, rfl⟩, hoffset, ?_, ?_⟩
  · rw [hds]
    exact StringPart.digits (e := []) (stringPart_escape hchar) hcode
  · -- the digits would have been read if all four of them stood there
    have hmissing : ∀ m, v ≠ ds ++ m := by
      rintro m rfl
      have hyields := @hexCode_yields ds (m ++ rest) code (here + 2) hcode
      rw [← List.append_assoc, hhex] at hyields
      exact not_yields_error hyields
    have hlt : byteLength v < byteLength ds := by
      rcases List.append_eq_append_iff.1 hds with ⟨m, rfl, -⟩ | ⟨m, rfl, -⟩
      · have hm : m ≠ [] := by
          rintro rfl
          exact hmissing [] (by simp)
        have hpos := byteLength_pos hm
        rw [byteLength_append]
        omega
      · exact absurd rfl (hmissing m)
    simp only [byteLength_cons, byteLength_nil]
    omega

/-- Four digits that are missing behind the second `\u` start where they should stand. -/
theorem points_secondDigits {here high : Nat} {hs v r : List Char} {c : Char} {e : Fault}
    (hcode : HexCode hs high) (hoffset : e.offset? = some (here + 8)) (hr : r ≠ [])
    (hchar : Character ('\\' :: ('u' :: (hs ++ ['\\', 'u']) ++ v ++ r)) c) :
    e.PointsInPart here ('\\' :: ('u' :: (hs ++ ['\\', 'u']) ++ v))
      ('\\' :: ('u' :: (hs ++ ['\\', 'u']) ++ v ++ r)) := by
  have hshape : 'u' :: (hs ++ ['\\', 'u']) ++ v ++ r
      = 'u' :: (hs ++ '\\' :: 'u' :: (v ++ r)) := by simp
  rw [hshape] at hchar ⊢
  obtain ⟨code, hdigits⟩ := hchar.digits_of_pair hcode
  have hpart : StringPart ('\\' :: 'u' :: (hs ++ '\\' :: 'u' :: (v ++ r))) 0
      ('\\' :: 'u' :: hs ++ '\\' :: 'u' :: (v ++ r ++ [])) := by
    simpa using stringPart_escape hchar
  have hbytes : byteLength ('\\' :: 'u' :: hs ++ ['\\', 'u']) = 8 := by
    simp [byteLength_hexCode hcode]
  have hpos := byteLength_pos hr
  refine ⟨'\\' :: 'u' :: hs ++ ['\\', 'u'], v ++ r, ⟨v, by simp⟩, ?_, ?_, ?_⟩
  · rw [hbytes, hoffset]
  · simpa using StringPart.digits hpart hdigits
  · simp only [List.cons_append, List.append_assoc, byteLength_cons, byteLength_append]
    omega

/-- An escape that fails may still be completed at some place and not behind it. The fault is
    reported where it starts, or where the digits start that were being read. -/
theorem escape_stuck {here : Nat} {s : List Char} {e : Fault}
    (h : escape here ⟨here + 1, s⟩ = .error e) :
    ∃ u rest r c, s = u ++ rest ∧ Refuses (escape here) (here + 1) u rest
      ∧ Character ('\\' :: (u ++ r)) c
      ∧ e.PointsInPart here ('\\' :: u) ('\\' :: (u ++ r)) := by
  have hfail : ∀ a d, ¬ Yields (escape here ⟨here + 1, s⟩) a d := by
    rw [h]
    exact fun _ _ => not_yields_error
  obtain ⟨u, rest, rfl, ⟨r, c, hchar⟩, hrest⟩ := exists_longest startsEscape_nil s
  have hbegins : ∀ v, v <+: u ++ rest → StartsEscape v → v <+: u := by
    intro v
    exact prefix_of_longest (fun _ _ => StartsEscape.of_append) hrest
  refine ⟨u, rest, r, c, rfl, ?_, hchar, ?_⟩
  · apply refuses_of_longest (P := fun q => ∃ c, Character ('\\' :: q) c) _ _ hfail
    · rintro x hx ⟨r, c, hc⟩
      exact hrest x hx ⟨r, c, hc⟩
    · intro t a d ⟨_, heq⟩
      have hensures := escape_ensures here ⟨here + 1, t⟩
      rw [heq] at hensures
      obtain ⟨q, hpass, hq⟩ := hensures.of_ok
      exact ⟨q, hpass.1, _, hq⟩
    · rintro q t ⟨c, hc⟩
      exact ⟨c, _, escape_yields hc⟩
  · -- an escape that is complete would have been read
    have hr : r ≠ [] := by
      rintro rfl
      rw [List.append_nil] at hchar
      exact hfail _ _ (escape_yields hchar)
    have hstart : e.offset? = some here →
        e.PointsInPart here ('\\' :: u) ('\\' :: (u ++ r)) := by
      intro hoffset
      have hpos := byteLength_pos hr
      refine ⟨[], '\\' :: (u ++ r), List.nil_prefix, hoffset, stringPart_escape hchar, ?_⟩
      simp only [byteLength_cons, byteLength_append, byteLength_nil]
      omega
    rcases escape_error h with hoffset | ⟨t, ht, h⟩
    · exact hstart hoffset
    · rcases unicodeEscape_error h with hoffset | ⟨hoffset, e', hhex⟩ | hsecond
      · exact hstart hoffset
      · obtain ⟨v, rfl⟩ := hbegins ['u'] (by rw [ht]; exact ⟨t, rfl⟩) startsEscape_u
        obtain rfl : v ++ rest = t := by simpa using ht
        exact points_firstDigits hhex hoffset hchar
      · obtain ⟨hs, high, t', rfl, hcode, hhigh, hoffset⟩ := hsecond
        obtain ⟨v, rfl⟩ := hbegins ('u' :: (hs ++ ['\\', 'u']))
          (by rw [ht]; exact ⟨t', by simp⟩) (startsEscape_pair hcode hhigh)
        exact points_secondDigits hcode hoffset hr hchar

/-! ## Strings -/

/-- Behind `u`, which starts at byte `o`, the string `k` opened at `opening` is not complete yet. The
    fault is reported at the opening quote, behind `u`, or where a part of the string starts that is
    not complete either. -/
def Fault.PointsInString (opening o : Nat) (u k : List Char) (e : Fault) : Prop :=
  e.offset? = some opening ∨ e.offset? = some (o + byteLength u) ∨ e.PointsInPart o u k

theorem Fault.PointsInString.after {opening o : Nat} {s u k : List Char} {c : Char} {e : Fault}
    (h : e.PointsInString opening (o + byteLength s) u k) (hs : Character s c) :
    e.PointsInString opening o (s ++ u) (s ++ k) := by
  rcases h with h | h | ⟨before, piece, hbefore, hoffset, hpart, hlt⟩
  · exact .inl h
  · refine .inr (.inl ?_)
    rw [h, byteLength_append, Nat.add_assoc]
  · refine .inr (.inr ⟨s ++ before, piece, (List.prefix_append_right_inj s).2 hbefore, ?_, ?_, ?_⟩)
    · rw [hoffset, byteLength_append, Nat.add_assoc]
    · rw [byteLength_append]
      exact hpart.after hs
    · rw [byteLength_append, byteLength_append]
      omega

theorem stringBody_of_escape {opening o : Nat} {s t a : List Char} {ch : Char} {d : Cursor}
    (hs : Character ('\\' :: s) ch)
    (h : Yields (stringBody opening ⟨o, '\\' :: s ++ t⟩) a d) :
    ∃ b, Yields (stringBody opening ⟨o + byteLength ('\\' :: s), t⟩) b d := by
  rw [List.cons_append, stringBody] at h
  obtain ⟨_, h⟩ := h.of_bind_of_yields (escape_yields hs)
  obtain ⟨⟨b, next, hlt⟩, hb, hpure⟩ := h.of_bind
  obtain ⟨_, heq⟩ := hpure
  cases heq
  have hoffset : o + byteLength ('\\' :: s) = o + 1 + byteLength s := by
    rw [byteLength_cons, utf8Size_of_ascii (by decide), Nat.add_assoc]
  rw [hoffset]
  exact ⟨b, hlt, hb⟩

/-- Behind one of its characters a string is read on. -/
theorem stringBody_of_character {opening o : Nat} {s t a : List Char} {ch : Char} {d : Cursor}
    (hs : Character s ch) (h : Yields (stringBody opening ⟨o, s ++ t⟩) a d) :
    ∃ b, Yields (stringBody opening ⟨o + byteLength s, t⟩) b d := by
  cases hs with
  | plain hlow hquote hslash =>
    rw [List.singleton_append, stringBody.eq_4 opening o ch t hquote hslash,
      if_neg (Nat.not_lt_of_le hlow)] at h
    obtain ⟨⟨b, next, hlt⟩, hb, hpure⟩ := h.of_bind
    obtain ⟨_, heq⟩ := hpure
    cases heq
    exact ⟨b, hlt, hb⟩
  | letter htable => exact stringBody_of_escape (.letter htable) h
  | code hcode => exact stringBody_of_escape (.code hcode) h
  | pair hcode hhigh hhigh' hcode' hlow hlow' hch =>
    exact stringBody_of_escape (.pair hcode hhigh hhigh' hcode' hlow hlow' hch) h

/-- A string that fails may still be completed at some place and not behind it. -/
def StringStuck (opening : Nat) (c : Cursor) (e : Fault) : Prop :=
  ∃ u rest r cs, c.rest = u ++ rest ∧ Refuses (stringBody opening) c.offset u rest
    ∧ Characters (u ++ r) cs ∧ e.PointsInString opening c.offset u (u ++ r)

theorem StringStuck.after {opening : Nat} {c d : Cursor} {s : List Char} {ch : Char} {e : Fault}
    (h : StringStuck opening d e) (hs : Character s ch) (hpass : c.Passes s d) :
    StringStuck opening c e := by
  obtain ⟨u, rest, r, cs, hrest, hrefuses, hcs, hpoints⟩ := h
  rw [hpass.2] at hrefuses hpoints
  refine ⟨s ++ u, rest, r, ch :: cs, ?_, ?_, ?_, ?_⟩
  · rw [hpass.1, hrest, List.append_assoc]
  · intro x hx y a f hread
    rw [List.append_assoc] at hread
    obtain ⟨b, hread⟩ := stringBody_of_character hs hread
    exact hrefuses x hx y b f hread
  · rw [List.append_assoc]
    exact .cons hs hcs
  · rw [List.append_assoc]
    exact hpoints.after hs

theorem stringBody_stuck (opening : Nat) (c : Cursor) {e : Fault}
    (h : stringBody opening c = .error e) : StringStuck opening c e := by
  -- the text ends, the string ends, an escape, a control character, any other character
  induction c using stringBody.induct with
  | case1 o =>
    rw [stringBody] at h
    cases h
    exact ⟨[], [], [], [], rfl, refuses_nil _ _ _, .nil, .inl rfl⟩
  | case2 o rest =>
    rw [stringBody] at h
    cases h
  | case3 here rest ih =>
    rw [stringBody] at h
    rcases bind_eq_error h with h | ⟨⟨ch, next, hlt⟩, hescape, h⟩
    · obtain ⟨u, rest, r, ch, rfl, hrefuses, hchar, hpoints⟩ := escape_stuck h
      refine ⟨'\\' :: u, rest, r, [ch], rfl, ?_, ?_, .inr (.inr hpoints)⟩
      · intro x hx y a d hread
        rw [List.cons_append, stringBody] at hread
        obtain ⟨q, next, hq⟩ := hread.first
        exact hrefuses x hx y q next hq
      · simpa using Characters.cons hchar .nil
    · have hensures := escape_ensures here ⟨here + 1, rest⟩
      rw [hescape] at hensures
      obtain ⟨q, hpass, hchar⟩ := hensures.of_ok
      replace h := first_eq_error h fun _ => ⟨_, rfl⟩
      exact (ih next hlt h).after hchar (hpass.byte rfl)
  | case4 here ch rest hquote hslash hlow =>
    rw [stringBody.eq_4 opening here ch rest hquote hslash, if_pos hlow] at h
    refine ⟨[], ch :: rest, [], [], rfl, ?_, .nil, ?_⟩
    · rintro x ⟨⟩ y a d hread
      rw [List.nil_append, stringBody.eq_4 opening here ch y hquote hslash, if_pos hlow] at hread
      exact not_yields_error hread
    · unfold controlFault at h
      split at h
      · cases h
        exact .inr (.inl rfl)
      · cases h
        exact .inl rfl
  | case5 here ch rest hquote hslash hlow ih =>
    rw [stringBody.eq_4 opening here ch rest hquote hslash, if_neg hlow] at h
    replace h := first_eq_error h fun _ => ⟨_, rfl⟩
    have hplain : Character [ch] ch := .plain (Nat.le_of_not_lt hlow) hquote hslash
    exact (ih h).after hplain (Cursor.Passes.refl _).cons

/-! ## Words -/

/-- A word that fails starts like the text up to some place. The fault is reported where it
    starts. -/
theorem word_stuck {spelling : String} {meaning : Scalar} {o : Nat} {s : List Char} {e : Fault}
    (hspelling : spelling.toList ≠ []) (h : word spelling meaning ⟨o, s⟩ = .error e) :
    ∃ u rest r, s = u ++ rest ∧ Refuses (word spelling meaning) o u rest
      ∧ u ++ r = spelling.toList ∧ r ≠ [] ∧ e.offset? = some o := by
  have hfail : ∀ a d, ¬ Yields (word spelling meaning ⟨o, s⟩) a d := by
    rw [h]
    exact fun _ _ => not_yields_error
  obtain ⟨u, rest, rfl, ⟨r, hr⟩, hrest⟩ :=
    @exists_longest (fun v => v <+: spelling.toList) List.nil_prefix s
  refine ⟨u, rest, r, rfl, ?_, hr, ?_, ?_⟩
  · apply refuses_of_longest (P := fun q => q = spelling.toList) _ _ hfail
    · rintro x hx ⟨r, hr⟩
      exact hrest x hx ⟨r, hr⟩
    · intro t a d ⟨_, heq⟩
      have hensures := word_ensures spelling meaning ⟨o, t⟩
      rw [heq] at hensures
      exact ⟨_, hensures.of_ok.1.1, rfl⟩
    · rintro q t rfl
      exact ⟨meaning, _, word_yields hspelling⟩
  · rintro rfl
    rw [List.append_nil] at hr
    subst hr
    exact hfail _ _ (word_yields hspelling)
  · unfold word at h
    dsimp only at h
    split at h
    · cases h
    · cases h
      rfl

/-! ## Numbers -/

theorem someDigits_error {expected : Expected} {c : Cursor} {e : Fault}
    (h : someDigits expected c = .error e) :
    e.offset? = some c.offset ∧ Cursor.StopsAt isDigit c.rest := by
  unfold someDigits at h
  split at h
  · next here d rest =>
    split at h
    · cases h
    · next hd =>
      cases h
      rw [Bool.not_eq_true] at hd
      exact ⟨rfl, (Cursor.stopsAt_cons _ _ _).2 hd⟩
  · next hcons =>
    cases h
    refine ⟨rfl, Cursor.stopsAt_of_ne_cons ?_⟩
    intro x here rest _
    exact hcons here x rest

/-- Digits are refused where another character stands. -/
theorem someDigits_eq_error {expected : Expected} {o : Nat} {x : Char} (hx : isDigit x = false)
    (y : List Char) :
    someDigits expected ⟨o, x :: y⟩ = .error (unexpectedAt expected ⟨o, x :: y⟩) := by
  rw [someDigits, if_neg (by rw [hx]; decide)]

theorem wholeDigits_eq_error {o : Nat} {x : Char} (hx : isDigit x = false) (y : List Char) :
    wholeDigits ⟨o, x :: y⟩ = .error (unexpectedAt .digit ⟨o, x :: y⟩) := by
  rw [wholeDigits]
  · exact someDigits_eq_error hx y
  · rintro here tail ⟨⟩
    cases hx

theorem wholeDigits_error {c : Cursor} {e : Fault} (h : wholeDigits c = .error e) :
    e.offset? = some c.offset ∧ Cursor.StopsAt isDigit c.rest := by
  unfold wholeDigits at h
  split at h
  · cases h
  · exact someDigits_error h

theorem fraction?_error {c : Cursor} {e : Fault} (h : fraction? c = .error e) :
    ∃ t, c.rest = '.' :: t ∧ e.offset? = some (c.offset + 1) ∧ Cursor.StopsAt isDigit t := by
  unfold fraction? at h
  split at h
  · next here rest =>
    replace h := first_eq_error h fun _ => ⟨_, rfl⟩
    obtain ⟨hoffset, hstop⟩ := someDigits_error h
    exact ⟨rest, rfl, hoffset, hstop⟩
  · cases h

theorem fraction?_eq_error {o : Nat} {x : Char} (hx : isDigit x = false) (y : List Char) :
    fraction? ⟨o, '.' :: x :: y⟩ = .error (unexpectedAt .fractionDigit ⟨o + 1, x :: y⟩) := by
  rw [fraction?, someDigits_eq_error hx]
  rfl

theorem exponentBody_eq_error {c start : Cursor} {negative : Bool} {h : _} {x : Char}
    {y : List Char} (hsign : exponentSign c = (negative, ⟨start, h⟩)) (hstart : start.rest = x :: y)
    (hx : isDigit x = false) : ∃ e, exponentBody c = .error e := by
  obtain ⟨o, rest⟩ := start
  obtain rfl : rest = x :: y := hstart
  rw [exponentBody, hsign]
  dsimp only
  rw [someDigits_eq_error hx]
  exact ⟨_, rfl⟩

/-- The body of an exponent fails behind its sign, if no digit stands there. -/
theorem exponentBody_error {c : Cursor} {e : Fault} (h : exponentBody c = .error e) :
    ∃ sg negative t, c.rest = sg ++ t ∧ ExponentSign sg negative
      ∧ e.offset? = some (c.offset + byteLength sg)
      ∧ ∀ x ∈ t.head?, ∀ o y, ∃ e', exponentBody ⟨o, sg ++ x :: y⟩ = .error e' := by
  unfold exponentBody exponentSign at h
  split at h
  next negative start hle heq =>
  have hdigits : someDigits .exponentDigit start = .error e := by
    exact first_eq_error h fun _ => ⟨_, rfl⟩
  obtain ⟨hoffset, hstop⟩ := someDigits_error hdigits
  split at heq
  · next here rest _ =>
    cases heq
    refine ⟨['-'], true, rest, rfl, .minus, hoffset, ?_⟩
    intro x hx o y
    exact exponentBody_eq_error (c := ⟨o, '-' :: x :: y⟩) rfl rfl (hstop x hx)
  · next here rest _ =>
    cases heq
    refine ⟨['+'], false, rest, rfl, .plus, hoffset, ?_⟩
    intro x hx o y
    exact exponentBody_eq_error (c := ⟨o, '+' :: x :: y⟩) rfl rfl (hstop x hx)
  · next hminus hplus =>
    cases heq
    refine ⟨[], false, c.rest, rfl, .none, hoffset, ?_⟩
    intro x hx o y
    obtain ⟨rest, hrest⟩ := List.head?_eq_some_iff.1 hx
    -- the character is no sign either
    have hne : ∀ sg, (∀ here rest, c = ⟨here, sg :: rest⟩ → False) → x ≠ sg := by
      rintro sg hsg rfl
      exact hsg c.offset rest (by rw [← hrest])
    have hsign : exponentSign ⟨o, x :: y⟩ = (false, ⟨⟨o, x :: y⟩, Nat.le_refl _⟩) := by
      rw [exponentSign]
      · rintro here tail ⟨⟩
        exact hne '-' hminus rfl
      · rintro here tail ⟨⟩
        exact hne '+' hplus rfl
    exact exponentBody_eq_error hsign rfl (hstop x hx)

theorem exponent?_error {c : Cursor} {e : Fault} (h : exponent? c = .error e) :
    ∃ mark t, isExponentMark mark = true ∧ c.rest = mark :: t
      ∧ exponentBody ⟨c.offset + 1, t⟩ = .error e := by
  unfold exponent? at h
  split at h
  · next here t =>
    replace h := first_eq_error h fun _ => ⟨_, rfl⟩
    exact ⟨'e', t, rfl, rfl, h⟩
  · next here t =>
    replace h := first_eq_error h fun _ => ⟨_, rfl⟩
    exact ⟨'E', t, rfl, rfl, h⟩
  · cases h

theorem exponent?_eq_error {o : Nat} {mark : Char} {t : List Char} {e : Fault}
    (hmark : isExponentMark mark = true) (h : exponentBody ⟨o + 1, t⟩ = .error e) :
    exponent? ⟨o, mark :: t⟩ = .error e := by
  simp only [isExponentMark, Bool.or_eq_true, beq_iff_eq] at hmark
  rcases hmark with rfl | rfl
  · rw [exponent?, h]
    rfl
  · rw [exponent?, h]
    rfl

theorem sign_stops {c afterSign : Cursor} {h : _} (hsign : sign c = (false, ⟨afterSign, h⟩)) :
    Cursor.StopsAt (· == '-') afterSign.rest := by
  unfold sign at hsign
  split at hsign
  · cases hsign
  · next hminus =>
    cases hsign
    apply Cursor.stopsAt_of_ne_cons
    intro x here rest hx
    obtain rfl := beq_iff_eq.1 hx
    exact hminus here rest

/-- Behind the point of a number only a digit is read. -/
theorem refuses_fraction {o : Nat} {negative : Bool} {w t : List Char} (hw : Whole w)
    (ht : Cursor.StopsAt isDigit t) :
    Refuses numeral o (minusSign negative ++ (w ++ ['.'])) t := by
  intro x hx y a d hread
  have hshape : minusSign negative ++ (w ++ ['.']) ++ x :: y
      = minusSign negative ++ (w ++ '.' :: x :: y) := by simp
  obtain ⟨_, hsign⟩ := @sign_eq o negative (w ++ '.' :: x :: y) fun _ => hw.stops
  have hpoint : Cursor.StopsAt isDigit ('.' :: x :: y) := (Cursor.stopsAt_cons _ _ _).2 rfl
  obtain ⟨_, hwhole⟩ := @wholeDigits_yields (o + byteLength (minusSign negative)) w
    ('.' :: x :: y) hw (.inr hpoint)
  rw [hshape, numeral, hsign] at hread
  dsimp only at hread
  rw [hwhole, ok_bind] at hread
  dsimp only at hread
  rw [fraction?_eq_error (ht x hx)] at hread
  exact not_yields_error hread

/-- What the reader of exponents refuses behind their letter is refused in a number. -/
theorem refuses_exponent {o : Nat} {negative : Bool} {w f sg t : List Char} {mark : Char}
    {fraction : Option (List Char)} (hw : Whole w) (hf : Fraction f fraction)
    (hmark : isExponentMark mark = true)
    (ht : ∀ x ∈ t.head?, ∀ o y, ∃ e, exponentBody ⟨o, sg ++ x :: y⟩ = .error e) :
    Refuses numeral o (minusSign negative ++ (w ++ (f ++ mark :: sg))) t := by
  intro x hx y a d hread
  have hshape : minusSign negative ++ (w ++ (f ++ mark :: sg)) ++ x :: y
      = minusSign negative ++ (w ++ (f ++ mark :: (sg ++ x :: y))) := by simp
  have hdigit : isDigit mark = false ∧ (mark == '.') = false := by
    simp only [isExponentMark, Bool.or_eq_true, beq_iff_eq] at hmark
    rcases hmark with rfl | rfl <;> exact ⟨rfl, rfl⟩
  have hends : FractionEnds fraction (mark :: (sg ++ x :: y)) := by
    cases fraction with
    | none => exact (Cursor.stopsAt_cons _ _ _).2 hdigit.2
    | some _ => exact (Cursor.stopsAt_cons _ _ _).2 hdigit.1
  obtain ⟨_, hsign⟩ := @sign_eq o negative (w ++ (f ++ mark :: (sg ++ x :: y))) fun _ => hw.stops
  obtain ⟨_, hwhole⟩ := @wholeDigits_yields (o + byteLength (minusSign negative)) w
    (f ++ mark :: (sg ++ x :: y)) hw (.inr (hf.stops ((Cursor.stopsAt_cons _ _ _).2 hdigit.1)))
  obtain ⟨_, hfraction⟩ := @fraction?_advances
    (o + byteLength (minusSign negative) + byteLength w) f (mark :: (sg ++ x :: y)) fraction hf hends
  obtain ⟨e, he⟩ := ht x hx (o + byteLength (minusSign negative) + byteLength w + byteLength f + 1) y
  rw [hshape, numeral, hsign] at hread
  dsimp only at hread
  rw [hwhole, ok_bind] at hread
  dsimp only at hread
  rw [hfraction, ok_bind] at hread
  dsimp only at hread
  rw [exponent?_eq_error hmark he] at hread
  exact not_yields_error hread

/-- Behind its sign a number starts with a digit. -/
theorem refuses_whole {c afterSign : Cursor} {negative : Bool} {h : _}
    (hsign : sign c = (negative, ⟨afterSign, h⟩)) (hstop : Cursor.StopsAt isDigit afterSign.rest) :
    Refuses numeral c.offset (minusSign negative) afterSign.rest := by
  intro x hx y a d hread
  have hminus : negative = false → Cursor.StopsAt (· == '-') (x :: y) := by
    rintro rfl
    exact (sign_stops hsign).of_head? hx.symm
  obtain ⟨_, heq⟩ := @sign_eq c.offset negative (x :: y) hminus
  rw [numeral, heq] at hread
  dsimp only at hread
  rw [wholeDigits_eq_error (hstop x hx)] at hread
  exact not_yields_error hread

/-- A number that fails lacks a digit at some place, where the fault is reported. -/
theorem numeral_stuck {c : Cursor} {e : Fault} (h : numeral c = .error e) :
    ∃ u rest n, c.rest = u ++ rest ∧ Refuses numeral c.offset u rest ∧ Spells (u ++ ['0']) n
      ∧ e.offset? = some (c.offset + byteLength u) := by
  have hdigit : Digits ['0'] := by
    refine ⟨List.cons_ne_nil _ _, ?_⟩
    intro x hx
    obtain rfl := List.mem_singleton.1 hx
    rfl
  have hpass₁ := sign_passes c
  unfold numeral at h
  split at h
  next negative afterSign h₁ hsign =>
  rw [hsign] at hpass₁
  rcases bind_eq_error h with h | ⟨⟨w, afterWhole, h₂⟩, hwhole, h⟩
  · obtain ⟨hoffset, hstop⟩ := wholeDigits_error h
    refine ⟨minusSign negative, afterSign.rest, ⟨negative, ['0'], none, none⟩, hpass₁.1,
      refuses_whole hsign hstop, .parts .zero .absent .absent, ?_⟩
    rw [hoffset, hpass₁.2]
  have hensures₂ := wholeDigits_ensures afterSign
  rw [hwhole] at hensures₂
  obtain ⟨hpass₂, hw⟩ := hensures₂.of_ok
  rcases bind_eq_error h with h | ⟨⟨fraction, afterFraction, h₃⟩, hfraction, h⟩
  · obtain ⟨t, ht, hoffset, hstop⟩ := fraction?_error h
    have hpass : c.Passes (minusSign negative ++ w) afterWhole := hpass₁.trans hpass₂
    refine ⟨minusSign negative ++ (w ++ ['.']), t, ⟨negative, w, some ['0'], none⟩, ?_,
      refuses_fraction hw hstop, ?_, ?_⟩
    · rw [hpass.1, ht]
      simp
    · simpa using @Spells.parts negative _ _ _ _ _ hw (.present hdigit) .absent
    · rw [hoffset, hpass.2]
      simp only [byteLength_append]
      rfl
  have hensures₃ := fraction?_ensures afterWhole
  rw [hfraction] at hensures₃
  obtain ⟨f, hpass₃, hf⟩ := hensures₃.of_ok
  replace h := first_eq_error h fun _ => ⟨_, rfl⟩
  obtain ⟨mark, rest, hmark, hrest, hbody⟩ := exponent?_error h
  obtain ⟨sg, signed, t, ht, hsg, hoffset, hrefuses⟩ := exponentBody_error hbody
  have hletter : mark = 'e' ∨ mark = 'E' := by simpa [isExponentMark] using hmark
  have hsize : mark.utf8Size = 1 := by
    rcases hletter with rfl | rfl <;> rfl
  have hpass : c.Passes (minusSign negative ++ (w ++ f)) afterFraction :=
    hpass₁.trans (hpass₂.trans hpass₃)
  refine ⟨minusSign negative ++ (w ++ (f ++ mark :: sg)), t,
    ⟨negative, w, fraction, some (signed, ['0'])⟩, ?_, refuses_exponent hw hf hmark hrefuses, ?_, ?_⟩
  · rw [hpass.1, hrest, show rest = sg ++ t from ht]
    simp
  · simpa using @Spells.parts negative _ _ _ _ _ hw hf (.present hletter hsg hdigit)
  · rw [hoffset, hpass.2]
    simp only [byteLength_append, byteLength_cons, hsize]
    congr 1
    omega

end BimEditor.Json
