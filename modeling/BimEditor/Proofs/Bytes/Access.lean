/-
  BimEditor.Proofs.Bytes.Access

  A text as the array of its bytes, read by offsets. An access asks for a byte, for a run of bytes
  or for a run of characters. It is refused, as `none`, unless the bounds are in order and within
  the text (`isSome_byteAt_iff`, `isSome_bytesFrom_iff`, `isSome_bytesBetween_iff`); and a run of
  characters has to start and to end between two characters (`isSome_charsBetween_iff`).

  The second half says what the accesses give at a cursor. An ASCII character is told by its byte,
  and no byte of a longer character looks like one (`ByteClass`). A search for ASCII bytes may
  therefore also start inside of a character (`Near`).
-/
import BimEditor.Proofs.Text.Beginning

namespace BimEditor

/-- A text as the run of its bytes. What is wanted of it is asked for by offset. -/
abbrev Bytes :=
  List Char

namespace Bytes

open BimEditor.Text

/-! ## Accesses -/

/-- The byte at `i`. -/
def byteAt (text : Bytes) (i : Nat) : Option UInt8 :=
  (utf8Bytes text)[i]?

/-- The bytes from `start` on. -/
def bytesFrom (text : Bytes) (start : Nat) : Option (List UInt8) :=
  if start ≤ byteLength text then some ((utf8Bytes text).drop start) else none

/-- The bytes from `start` up to `stop`. -/
def bytesBetween (text : Bytes) (start stop : Nat) : Option (List UInt8) :=
  if start ≤ stop ∧ stop ≤ byteLength text then
    some (((utf8Bytes text).drop start).take (stop - start))
  else none

/-- The characters from byte `start` on. -/
def charsFrom (text : Bytes) (start : Nat) : Option (List Char) :=
  (splitBytes? start text).map (·.2)

/-- The characters from byte `start` up to byte `stop`. -/
def charsBetween (text : Bytes) (start stop : Nat) : Option (List Char) :=
  if start ≤ stop then
    ((charsFrom text start).bind (splitBytes? (stop - start))).map (·.1)
  else none

/-- Byte `i` is where a character starts, or the end of the text. -/
def IsBoundary (text : List Char) (i : Nat) : Prop :=
  ∃ before after, text = before ++ after ∧ byteLength before = i

theorem splitBytes?_append (s t : List Char) :
    splitBytes? (byteLength s) (s ++ t) = some (s, t) := by
  induction s with
  | nil => cases t <;> rfl
  | cons c s ih =>
    have hpos := c.utf8Size_pos
    rw [List.cons_append, byteLength_cons, splitBytes?, if_neg (by omega), if_pos (by omega),
      Nat.add_sub_cancel_left, ih]
    rfl

theorem byteLength_of_splitBytes? {n : Nat} {s taken rest : List Char}
    (h : splitBytes? n s = some (taken, rest)) : byteLength taken = n := by
  induction s generalizing n taken rest with
  | nil => grind [splitBytes?, byteLength]
  | cons c s ih =>
    simp only [splitBytes?] at h
    split at h
    · grind [byteLength]
    · split at h
      · obtain ⟨⟨t, r⟩, ht, heq⟩ := Option.map_eq_some_iff.1 h
        have hlength := ih ht
        simp only [Prod.mk.injEq] at heq
        obtain ⟨rfl, -⟩ := heq
        rw [byteLength_cons]
        omega
      · cases h

theorem charsFrom_eq_some_iff {text rest : List Char} {start : Nat} :
    charsFrom text start = some rest
      ↔ ∃ before, text = before ++ rest ∧ byteLength before = start := by
  constructor
  · intro h
    obtain ⟨⟨before, rest'⟩, hsplit, rfl⟩ := Option.map_eq_some_iff.1 h
    exact ⟨before, splitBytes?_eq_append hsplit, byteLength_of_splitBytes? hsplit⟩
  · rintro ⟨before, rfl, rfl⟩
    rw [charsFrom, splitBytes?_append]
    rfl

theorem isSome_charsFrom_iff {text : List Char} {start : Nat} :
    (charsFrom text start).isSome ↔ IsBoundary text start := by
  rw [Option.isSome_iff_exists]
  constructor
  · rintro ⟨rest, h⟩
    obtain ⟨before, htext, hstart⟩ := charsFrom_eq_some_iff.1 h
    exact ⟨before, rest, htext, hstart⟩
  · rintro ⟨before, rest, htext, hstart⟩
    exact ⟨rest, charsFrom_eq_some_iff.2 ⟨before, htext, hstart⟩⟩

/-- A run of characters is there if it can be cut out of the text. -/
theorem charsBetween_eq_some_iff {text piece : List Char} {start stop : Nat} :
    charsBetween text start stop = some piece ↔ Cut text ⟨start, stop⟩ piece := by
  unfold charsBetween
  constructor
  · intro h
    split at h
    · next hle =>
      obtain ⟨⟨taken, rest⟩, hbind, rfl⟩ := Option.map_eq_some_iff.1 h
      obtain ⟨rest', hfrom, hsplit⟩ := Option.bind_eq_some_iff.1 hbind
      obtain ⟨before, rfl, hstart⟩ := charsFrom_eq_some_iff.1 hfrom
      have hlength := byteLength_of_splitBytes? hsplit
      obtain rfl := splitBytes?_eq_append hsplit
      refine ⟨before, rest, rfl, hstart, ?_⟩
      show start + byteLength taken = stop
      omega
    · cases h
  · rintro ⟨before, after, htext, hstart, hstop⟩
    have hfrom : charsFrom text start = some (piece ++ after) :=
      charsFrom_eq_some_iff.2 ⟨before, htext, hstart⟩
    dsimp only at hstop
    subst hstop
    rw [if_pos (Nat.le_add_right _ _), hfrom, Option.bind_some, Nat.add_sub_cancel_left,
      splitBytes?_append]
    rfl

/-- Characters are given between two boundaries that are in order, and nowhere else. -/
theorem isSome_charsBetween_iff {text : List Char} {start stop : Nat} :
    (charsBetween text start stop).isSome
      ↔ start ≤ stop ∧ stop ≤ byteLength text ∧ IsBoundary text start ∧ IsBoundary text stop := by
  rw [Option.isSome_iff_exists]
  constructor
  · rintro ⟨piece, h⟩
    obtain ⟨before, after, rfl, rfl, hstop⟩ := charsBetween_eq_some_iff.1 h
    dsimp only at hstop
    subst hstop
    refine ⟨Nat.le_add_right _ _, ?_, ⟨before, _, rfl, rfl⟩, before ++ piece, after, ?_, ?_⟩
    · simp only [byteLength_append]
      omega
    · rw [List.append_assoc]
    · rw [byteLength_append]
  · rintro ⟨hle, -, ⟨before, rest, rfl, rfl⟩, ⟨before', after, htext, rfl⟩⟩
    -- the longer one of the two beginnings goes on with the piece
    have hprefix : before <+: before' := by
      rcases List.append_eq_append_iff.1 htext with ⟨piece, rfl, -⟩ | ⟨piece, rfl, -⟩
      · exact List.prefix_append _ _
      · rw [byteLength_append] at hle
        have hnone : piece = [] := by
          cases piece with
          | nil => rfl
          | cons c piece =>
            have hpos := c.utf8Size_pos
            rw [byteLength_cons] at hle
            omega
        simp [hnone]
    obtain ⟨piece, rfl⟩ := hprefix
    refine ⟨piece, charsBetween_eq_some_iff.2 ⟨before, after, ?_, rfl, ?_⟩⟩
    · rw [htext, List.append_assoc]
    · rw [byteLength_append]

theorem isSome_bytesFrom_iff {text : List Char} {start : Nat} :
    (bytesFrom text start).isSome ↔ start ≤ byteLength text := by
  unfold bytesFrom
  split <;> simp_all

theorem isSome_bytesBetween_iff {text : List Char} {start stop : Nat} :
    (bytesBetween text start stop).isSome ↔ start ≤ stop ∧ stop ≤ byteLength text := by
  unfold bytesBetween
  split <;> simp_all

/-! ## Bytes of characters -/

theorem utf8Bytes_append (s t : List Char) : utf8Bytes (s ++ t) = utf8Bytes s ++ utf8Bytes t :=
  List.flatMap_append

theorem length_utf8Bytes (s : List Char) : (utf8Bytes s).length = byteLength s := by
  induction s with
  | nil => rfl
  | cons c s ih =>
    rw [utf8Bytes_cons, List.length_append, String.length_utf8EncodeChar, ih, byteLength_cons]

theorem isSome_byteAt_iff {text : List Char} {i : Nat} :
    (byteAt text i).isSome ↔ i < byteLength text := by
  rw [byteAt, ← length_utf8Bytes]
  simp

/-- An ASCII character is stored as its code. -/
theorem encode_short {x : Char} (h : x.toNat < 0x80) :
    String.utf8EncodeChar x = [UInt8.ofNat x.toNat] := by
  have hle : x.val.toNat ≤ 127 := Nat.le_of_lt_succ h
  simp only [String.utf8EncodeChar, if_pos hle]
  rfl

theorem toNat_ofNat_short {x : Char} (h : x.toNat < 0x80) :
    (UInt8.ofNat x.toNat).toNat = x.toNat := by
  simp
  omega

/-- Every other character is stored in bytes that stand for no ASCII character. -/
theorem encode_long {x : Char} (h : 0x80 ≤ x.toNat) {b : UInt8}
    (hb : b ∈ String.utf8EncodeChar x) : 0x80 ≤ b.toNat := by
  have hlt : ¬ x.val.toNat ≤ 127 := Nat.not_le_of_lt h
  simp only [String.utf8EncodeChar, if_neg hlt] at hb
  split at hb
  · simp only [List.mem_cons, List.not_mem_nil, or_false] at hb
    rcases hb with rfl | rfl <;> simp <;> omega
  · split at hb
    · simp only [List.mem_cons, List.not_mem_nil, or_false] at hb
      rcases hb with rfl | rfl | rfl <;> simp <;> omega
    · simp only [List.mem_cons, List.not_mem_nil, or_false] at hb
      rcases hb with rfl | rfl | rfl | rfl <;> simp <;> omega

/-- A property of bytes that tells the ASCII characters with a property of characters. -/
structure ByteClass (p : UInt8 → Bool) (q : Char → Bool) : Prop where
  short : ∀ x : Char, x.toNat < 0x80 → p (UInt8.ofNat x.toNat) = q x
  long : ∀ x : Char, 0x80 ≤ x.toNat → q x = false
  high : ∀ b : UInt8, 0x80 ≤ b.toNat → p b = false

/-- The byte of one ASCII character. -/
def isByte (y : Char) (b : UInt8) : Bool :=
  b.toNat == y.toNat

namespace ByteClass

variable {p p' : UInt8 → Bool} {q q' : Char → Bool}

theorem single {y : Char} (h : y.toNat < 0x80) : ByteClass (isByte y) (· == y) where
  short x hx := by
    rw [isByte, toNat_ofNat_short hx, Bool.eq_iff_iff, beq_iff_eq, beq_iff_eq, Char.toNat_inj]
  long x hx := by
    rw [beq_eq_false_iff_ne]
    rintro rfl
    omega
  high b hb := by
    rw [isByte, beq_eq_false_iff_ne]
    omega

theorem or (h : ByteClass p q) (h' : ByteClass p' q') :
    ByteClass (fun b => p b || p' b) (fun x => q x || q' x) where
  short x hx := by rw [h.short x hx, h'.short x hx]
  long x hx := by rw [h.long x hx, h'.long x hx]; rfl
  high b hb := by rw [h.high b hb, h'.high b hb]; rfl

/-- No byte of a character counts if the character does not. -/
theorem encode_none (h : ByteClass p q) {x : Char} (hx : q x = false) {b : UInt8}
    (hb : b ∈ String.utf8EncodeChar x) : p b = false := by
  by_cases hshort : x.toNat < 0x80
  · rw [encode_short hshort, List.mem_singleton] at hb
    rw [hb, h.short x hshort, hx]
  · exact h.high b (encode_long (Nat.le_of_not_lt hshort) hb)

theorem encode_some (h : ByteClass p q) {x : Char} (hx : q x = true) :
    String.utf8EncodeChar x = [UInt8.ofNat x.toNat] ∧ p (UInt8.ofNat x.toNat) = true := by
  have hshort : x.toNat < 0x80 := by
    refine Nat.lt_of_not_le fun hlong => ?_
    rw [h.long x hlong] at hx
    cases hx
  exact ⟨encode_short hshort, by rw [h.short x hshort, hx]⟩

theorem utf8Size (h : ByteClass p q) {x : Char} (hx : q x = true) : x.utf8Size = 1 := by
  rw [← String.length_utf8EncodeChar, (h.encode_some hx).1]
  rfl

theorem utf8Bytes_none (h : ByteClass p q) {s : List Char} (hs : ∀ x ∈ s, q x = false) {b : UInt8}
    (hb : b ∈ utf8Bytes s) : p b = false := by
  obtain ⟨x, hx, hb⟩ := List.mem_flatMap.1 hb
  exact h.encode_none (hs x hx) hb

/-- The first byte that counts is that of the first character that does. -/
theorem findIdx?_append (h : ByteClass p q) {tail : List UInt8} (htail : ∀ b ∈ tail, p b = false)
    {s rest : List Char} {x : Char} (hs : ∀ y ∈ s, q y = false) (hx : q x = true) :
    (tail ++ utf8Bytes (s ++ x :: rest)).findIdx? p = some (tail.length + byteLength s) := by
  have hnone : ∀ bytes : List UInt8, (∀ b ∈ bytes, p b = false) → bytes.findIdx? p = none :=
    fun bytes hbytes => List.findIdx?_eq_none_iff.2 hbytes
  obtain ⟨hencode, hcounts⟩ := h.encode_some hx
  rw [utf8Bytes_append, utf8Bytes_cons, hencode, List.findIdx?_append, hnone tail htail,
    Option.none_or, List.findIdx?_append, hnone _ fun b hb => h.utf8Bytes_none hs hb,
    Option.none_or, length_utf8Bytes, List.singleton_append, List.findIdx?_cons, if_pos hcounts]
  simp only [Option.map_some, Nat.zero_add, Nat.add_comm]

theorem findIdx?_eq_none (h : ByteClass p q) {tail : List UInt8} (htail : ∀ b ∈ tail, p b = false)
    {s : List Char} (hs : ∀ y ∈ s, q y = false) : (tail ++ utf8Bytes s).findIdx? p = none := by
  rw [List.findIdx?_eq_none_iff]
  intro b hb
  rcases List.mem_append.1 hb with hb | hb
  · exact htail b hb
  · exact h.utf8Bytes_none hs hb

end ByteClass

/-! ## Places -/

/-- The cursor stands between two characters of the text, or at one of its ends. -/
def In (text : List Char) (c : Cursor) : Prop :=
  ∃ before, (Cursor.atStart text).Passes before c

/-- Byte `pos` is where the cursor stands, or it lies inside of the character before the cursor. -/
structure Near (text : List Char) (pos : Nat) (c : Cursor) : Prop where
  isIn : In text c
  tail : ∃ bytes, (utf8Bytes text).drop pos = bytes ++ utf8Bytes c.rest
    ∧ pos + bytes.length = c.offset ∧ ∀ b ∈ bytes, 0x80 ≤ b.toNat

section

variable {text s rest : List Char} {c d : Cursor} {o pos : Nat} {x : Char}

theorem in_atStart (text : List Char) : In text (.atStart text) :=
  ⟨[], .refl _⟩

theorem In.passes (h : In text c) (hpass : c.Passes s d) : In text d := by
  obtain ⟨before, hbefore⟩ := h
  exact ⟨before ++ s, hbefore.trans hpass⟩

theorem In.skip (h : In text c) (q : Char → Bool) : In text (c.skip q) :=
  h.passes (Cursor.passes_skip q c)

theorem In.cons (h : In text ⟨o, x :: rest⟩) : In text ⟨o + x.utf8Size, rest⟩ :=
  h.passes (Cursor.Passes.refl _).cons

theorem In.byte (h : In text ⟨o, x :: rest⟩) (hx : x.utf8Size = 1) : In text ⟨o + 1, rest⟩ :=
  h.passes ((Cursor.Passes.refl _).byte hx)

theorem In.eq_append (h : In text c) :
    ∃ before, text = before ++ c.rest ∧ byteLength before = c.offset := by
  obtain ⟨before, htext, hoffset⟩ := h
  refine ⟨before, htext, ?_⟩
  rw [hoffset]
  exact (Nat.zero_add _).symm

theorem In.offset_add (h : In text c) : c.offset + byteLength c.rest = byteLength text := by
  obtain ⟨before, htext, hoffset⟩ := h.eq_append
  rw [htext, byteLength_append, hoffset]

theorem In.drop (h : In text c) : (utf8Bytes text).drop c.offset = utf8Bytes c.rest := by
  obtain ⟨before, htext, hoffset⟩ := h.eq_append
  rw [htext, utf8Bytes_append, ← hoffset, ← length_utf8Bytes, List.drop_left]

theorem In.near (h : In text c) : Near text c.offset c :=
  ⟨h, [], h.drop, rfl, by simp⟩

/-- A place inside of a character, or behind it. -/
theorem In.near_cons (h : In text ⟨o, x :: rest⟩) {k : Nat} (hpos : 0 < k) (hk : k ≤ x.utf8Size) :
    Near text (o + k) ⟨o + x.utf8Size, rest⟩ := by
  refine ⟨h.cons, (String.utf8EncodeChar x).drop k, ?_, ?_, ?_⟩
  · have hlength : k - (String.utf8EncodeChar x).length = 0 := by
      rw [String.length_utf8EncodeChar]
      omega
    rw [← List.drop_drop, h.drop, utf8Bytes_cons, List.drop_append, hlength, List.drop_zero]
  · rw [List.length_drop, String.length_utf8EncodeChar]
    dsimp only
    omega
  · intro b hb
    by_cases hshort : x.toNat < 0x80
    · -- an ASCII character has nothing behind its first byte
      rw [encode_short hshort, List.drop_of_length_le hpos] at hb
      cases hb
    · exact encode_long (Nat.le_of_not_lt hshort) (List.mem_of_mem_drop hb)

/-- Every byte of a text lies near the first boundary at or behind it. -/
theorem near_ofOffset (h : pos ≤ byteLength text) : Near text pos (Cursor.ofOffset text pos) := by
  -- the characters before the boundary are passed one by one
  have hwalk : ∀ (rest : List Char) (o n : Nat), In text ⟨o, rest⟩ → n ≤ byteLength rest →
      Near text (o + n) ⟨byteLength text - byteLength (dropBytes n rest), dropBytes n rest⟩ := by
    intro rest
    induction rest with
    | nil =>
      intro o n hin hn
      obtain rfl : n = 0 := by simpa using hn
      have hlength := hin.offset_add
      dsimp only [byteLength_nil] at hlength
      rw [dropBytes, byteLength_nil, Nat.sub_zero, ← hlength]
      exact hin.near
    | cons x rest ih =>
      intro o n hin hn
      have hlength := hin.offset_add
      dsimp only at hlength
      rw [byteLength_cons] at hn hlength
      rw [dropBytes]
      split
      · next hzero =>
        have hoffset : byteLength text - byteLength (x :: rest) = o := by
          rw [byteLength_cons]
          omega
        rw [hzero, hoffset]
        exact hin.near
      · next hpos =>
        by_cases hinside : n ≤ x.utf8Size
        · have hnone : n - x.utf8Size = 0 := by omega
          have hdrop : dropBytes 0 rest = rest := by cases rest <;> rfl
          have hoffset : byteLength text - byteLength rest = o + x.utf8Size := by omega
          rw [hnone, hdrop, hoffset]
          exact hin.near_cons (by omega) hinside
        · have hplace : o + n = o + x.utf8Size + (n - x.utf8Size) := by omega
          rw [hplace]
          exact ih _ _ hin.cons (by omega)
  have := hwalk text 0 pos (in_atStart text) h
  rwa [Nat.zero_add] at this

theorem Near.le (h : Near text pos c) : pos ≤ byteLength text := by
  obtain ⟨hin, bytes, -, hpos, -⟩ := h
  have := hin.offset_add
  omega

/-! ### What is there -/

theorem In.charsFrom_eq (h : In text c) : charsFrom text c.offset = some c.rest :=
  charsFrom_eq_some_iff.2 h.eq_append

theorem In.charsBetween_eq (h : In text c) (hpass : c.Passes s d) :
    charsBetween text c.offset d.offset = some s := by
  obtain ⟨before, htext, hoffset⟩ := h.eq_append
  refine charsBetween_eq_some_iff.2 ⟨before, d.rest, ?_, hoffset, hpass.2.symm⟩
  rw [htext, hpass.1]

theorem In.bytesFrom_eq (h : In text c) : bytesFrom text c.offset = some (utf8Bytes c.rest) := by
  rw [bytesFrom, if_pos h.near.le, h.drop]

theorem In.bytesBetween_eq (h : In text c) (hpass : c.Passes s d) :
    bytesBetween text c.offset d.offset = some (utf8Bytes s) := by
  have hd := (h.passes hpass).offset_add
  have hlength : d.offset - c.offset = (utf8Bytes s).length := by
    rw [hpass.2, length_utf8Bytes]
    omega
  have hle : c.offset ≤ d.offset ∧ d.offset ≤ byteLength text := by
    have := hpass.2
    omega
  rw [bytesBetween, if_pos hle, h.drop, hpass.1, utf8Bytes_append, hlength, List.take_left]

theorem In.byteAt_nil (h : In text ⟨o, []⟩) : byteAt text o = none := by
  have hlength := h.offset_add
  dsimp only [byteLength_nil] at hlength
  rw [byteAt, List.getElem?_eq_none_iff, length_utf8Bytes]
  omega

/-- The byte at a character tells the character, as far as ASCII goes. -/
theorem In.byteAt_cons (h : In text ⟨o, x :: rest⟩) :
    ∃ b, byteAt text o = some b ∧ ∀ {p q}, ByteClass p q → p b = q x := by
  have hdrop := h.drop
  dsimp only at hdrop
  rw [utf8Bytes_cons] at hdrop
  obtain ⟨b, bytes, hencode⟩ := List.exists_cons_of_ne_nil (@String.utf8EncodeChar_ne_nil x)
  refine ⟨b, ?_, fun {p q} hclass => ?_⟩
  · rw [byteAt, ← Nat.add_zero o, ← List.getElem?_drop, hdrop, hencode]
    rfl
  · cases hx : q x with
    | true =>
      obtain ⟨hshort, hp⟩ := hclass.encode_some hx
      rw [hencode] at hshort
      rw [(List.cons.inj hshort).1, hp]
    | false => exact hclass.encode_none hx (by rw [hencode]; exact List.mem_cons_self)

end

/-! ## Looking and searching -/

/-- There is a byte at `pos`, and it satisfies `p`. -/
def sees (p : UInt8 → Bool) (text : Bytes) (pos : Nat) : Bool :=
  (byteAt text pos).any p

theorem lt_of_sees {p : UInt8 → Bool} {text : List Char} {pos : Nat} (h : sees p text pos = true) :
    pos < byteLength text := by
  rw [← isSome_byteAt_iff]
  unfold sees at h
  cases hbyte : byteAt text pos with
  | none =>
    rw [hbyte] at h
    cases h
  | some b => rfl

theorem sees_or (p p' : UInt8 → Bool) (text : List Char) (pos : Nat) :
    sees (fun b => p b || p' b) text pos = (sees p text pos || sees p' text pos) := by
  unfold sees
  cases byteAt text pos <;> rfl

/-- The first place at or behind `pos` whose byte does not satisfy `p`. -/
def skipBytes (p : UInt8 → Bool) (text : Bytes) (pos : Nat) : Nat :=
  if h : sees p text pos = true then
    have := lt_of_sees h
    skipBytes p text (pos + 1)
  else pos
termination_by byteLength text - pos
decreasing_by omega

/-- The first place at or behind `pos` whose byte satisfies `p`, searched in all bytes from `pos`
    on. -/
def find (p : UInt8 → Bool) (text : Bytes) (pos : Nat) : Option (Option Nat) :=
  (bytesFrom text pos).map fun bytes => (bytes.findIdx? p).map (pos + ·)

section

variable {p : UInt8 → Bool} {q : Char → Bool} {text : List Char} {c : Cursor} {pos : Nat}

theorem skipBytes_of_sees (h : sees p text pos = true) :
    skipBytes p text pos = skipBytes p text (pos + 1) := by
  rw [skipBytes, dif_pos h]

theorem skipBytes_of_not (h : sees p text pos = false) : skipBytes p text pos = pos := by
  rw [skipBytes, dif_neg (by rw [h]; exact Bool.false_ne_true)]

theorem In.sees_eq (h : In text c) (hclass : ByteClass p q) :
    sees p text c.offset = c.rest.head?.any q := by
  obtain ⟨o, rest⟩ := c
  unfold sees
  cases rest with
  | nil =>
    rw [h.byteAt_nil]
    rfl
  | cons x rest =>
    obtain ⟨b, hbyte, hb⟩ := h.byteAt_cons
    rw [hbyte]
    exact hb hclass

theorem In.skipBytes_eq (h : In text c) (hclass : ByteClass p q) :
    skipBytes p text c.offset = (c.skip q).offset := by
  obtain ⟨o, rest⟩ := c
  induction rest generalizing o with
  | nil => exact skipBytes_of_not (h.sees_eq hclass)
  | cons x rest ih =>
    have hsees := h.sees_eq hclass
    rw [List.head?_cons, Option.any_some] at hsees
    cases hx : q x with
    | true =>
      have hsize := hclass.utf8Size hx
      have hnext := ih (o + 1) (h.byte hsize)
      dsimp only [Cursor.skip] at hnext ⊢
      rw [skipBytes_of_sees (hsees.trans hx), hnext, List.takeWhile_cons_of_pos hx, byteLength_cons,
        hsize, Nat.add_assoc]
    | false =>
      rw [skipBytes_of_not (hsees.trans hx)]
      simp [Cursor.skip, hx]

/-- A search finds the first character of a class, or there is none. -/
theorem Near.find_cases (h : Near text pos c) (hclass : ByteClass p q) :
    (find p text pos = some none ∧ ∀ x ∈ c.rest, q x = false)
      ∨ ∃ s x rest, c.rest = s ++ x :: rest ∧ (∀ y ∈ s, q y = false) ∧ q x = true
        ∧ find p text pos = some (some (c.offset + byteLength s)) := by
  have hfrom : bytesFrom text pos = some ((utf8Bytes text).drop pos) := by
    rw [bytesFrom, if_pos h.le]
  obtain ⟨hin, bytes, hdrop, hpos, hbytes⟩ := h
  have htail : ∀ b ∈ bytes, p b = false := fun b hb => hclass.high b (hbytes b hb)
  rw [hdrop] at hfrom
  rw [find, hfrom, Option.map_some]
  cases hfound : c.rest.find? q with
  | none =>
    have hnone : ∀ x ∈ c.rest, q x = false := by simpa using hfound
    refine .inl ⟨?_, hnone⟩
    rw [hclass.findIdx?_eq_none htail hnone]
    rfl
  | some x =>
    obtain ⟨hx, s, rest, hrest, hs⟩ := List.find?_eq_some_iff_append.1 hfound
    have hs' : ∀ y ∈ s, q y = false := by simpa using hs
    refine .inr ⟨s, x, rest, hrest, hs', hx, ?_⟩
    rw [hrest, hclass.findIdx?_append htail hs' hx, Option.map_some, ← Nat.add_assoc, hpos]

end

end Bytes

end BimEditor
