/-
  BimEditor.Proofs.Text.Beginning

  The beginning of a text up to a byte: the characters that lie before it as a whole. Two texts with
  the same first bytes have the same beginning (`takeBytes_eq_of_bytes_eq`), since the bytes of a
  character are not the first ones of another.

  A cursor can be cut in the same way (`upTo`). What is passed behind a cut is what is passed in the
  whole text up to that byte (`passes_upTo_iff`).
-/
import BimEditor.Proofs.Text.Passage
import BimEditor.Text.SipHash

namespace BimEditor.Text

/-! ## The characters before a byte -/

theorem takeBytes_isPrefix (n : Nat) (s : List Char) : takeBytes n s <+: s := by
  induction s generalizing n with
  | nil => exact List.prefix_refl _
  | cons c s ih =>
    rw [takeBytes]
    split
    · exact (List.prefix_cons_inj c).2 (ih _)
    · exact List.nil_prefix

theorem byteLength_takeBytes_le (n : Nat) (s : List Char) : byteLength (takeBytes n s) ≤ n := by
  induction s generalizing n with
  | nil => exact Nat.zero_le n
  | cons c s ih =>
    rw [takeBytes]
    split
    · have := ih (n - c.utf8Size)
      rw [byteLength_cons]
      omega
    · exact Nat.zero_le n

/-- Of two cuts the earlier one counts. -/
theorem takeBytes_takeBytes {m n : Nat} (h : m ≤ n) (s : List Char) :
    takeBytes m (takeBytes n s) = takeBytes m s := by
  induction s generalizing m n with
  | nil => rfl
  | cons c s ih =>
    by_cases hn : c.utf8Size ≤ n
    · rw [takeBytes, if_pos hn, takeBytes, takeBytes, ih (by omega)]
    · have hm : ¬ c.utf8Size ≤ m := by omega
      rw [takeBytes, if_neg hn, takeBytes, takeBytes, if_neg hm]

theorem takeBytes_append_of_le {n : Nat} {s t : List Char} (h : byteLength s ≤ n) :
    takeBytes n (s ++ t) = s ++ takeBytes (n - byteLength s) t := by
  induction s generalizing n with
  | nil => rfl
  | cons c s ih =>
    rw [byteLength_cons] at h
    rw [List.cons_append, takeBytes, if_pos (by omega), ih (by omega), List.cons_append,
      byteLength_cons, Nat.sub_sub]

theorem takeBytes_zero (s : List Char) : takeBytes 0 s = [] := by
  cases s with
  | nil => rfl
  | cons c s =>
    have hpos := c.utf8Size_pos
    rw [takeBytes, if_neg (by omega)]

/-- A cut inside of a piece keeps only characters of that piece. -/
theorem takeBytes_append_isPrefix {n : Nat} {s t : List Char} (h : n ≤ byteLength s) :
    takeBytes n (s ++ t) <+: s := by
  induction s generalizing n with
  | nil =>
    obtain rfl := Nat.le_zero.1 h
    simp only [takeBytes_zero, List.nil_prefix]
  | cons c s ih =>
    rw [byteLength_cons] at h
    rw [List.cons_append, takeBytes]
    split
    · exact (List.prefix_cons_inj c).2 (ih (by omega))
    · exact List.nil_prefix

/-! ## Bytes -/

theorem utf8Bytes_cons (c : Char) (s : List Char) :
    utf8Bytes (c :: s) = String.utf8EncodeChar c ++ utf8Bytes s :=
  List.flatMap_cons

/-- The bytes of a character are not the first ones of another. -/
theorem eq_of_encoding_append {c c' : Char} {bytes bytes' : List UInt8}
    (h : String.utf8EncodeChar c ++ bytes = String.utf8EncodeChar c' ++ bytes') : c = c' := by
  have harrays := congrArg List.toByteArray h
  rw [List.toByteArray_append, List.toByteArray_append] at harrays
  have hdecode := @ByteArray.utf8DecodeChar?_utf8EncodeChar_append bytes.toByteArray c
  rw [harrays, ByteArray.utf8DecodeChar?_utf8EncodeChar_append] at hdecode
  exact (Option.some.inj hdecode).symm

/-- Where a character lies before byte `k`, a text with the same bytes up to there starts with
    it. -/
theorem head_eq_of_bytes_eq {k : Nat} {c c' : Char} {s s' : List Char} (hk : c.utf8Size ≤ k)
    (h : (utf8Bytes (c :: s)).take k = (utf8Bytes (c' :: s')).take k) : c = c' := by
  have hlength : (String.utf8EncodeChar c).length ≤ k := by
    rw [String.length_utf8EncodeChar]
    exact hk
  -- the encoding is among the first bytes of either text
  have hwhole : (utf8Bytes (c' :: s')).take k ++ (utf8Bytes (c' :: s')).drop k
      = String.utf8EncodeChar c' ++ utf8Bytes s' := by
    rw [List.take_append_drop, utf8Bytes_cons]
  rw [← h, utf8Bytes_cons, List.take_append, List.take_of_length_le hlength, List.append_assoc]
    at hwhole
  exact eq_of_encoding_append hwhole

theorem eq_zero_of_take_bytes_eq_nil {k : Nat} {c : Char} {s : List Char}
    (h : (utf8Bytes (c :: s)).take k = []) : k = 0 := by
  rw [List.take_eq_nil_iff, utf8Bytes_cons, List.append_eq_nil_iff] at h
  rcases h with h | h
  · exact h
  · exact absurd h.1 String.utf8EncodeChar_ne_nil

/-- Texts with the same first bytes have the same beginning. -/
theorem takeBytes_eq_of_bytes_eq {k : Nat} {s s' : List Char}
    (h : (utf8Bytes s).take k = (utf8Bytes s').take k) : takeBytes k s = takeBytes k s' := by
  induction s generalizing k s' with
  | nil =>
    cases s' with
    | nil => rfl
    | cons c' s' =>
      obtain rfl := eq_zero_of_take_bytes_eq_nil (h.symm.trans List.take_nil)
      rw [takeBytes_zero, takeBytes_zero]
  | cons c s ih =>
    cases s' with
    | nil =>
      obtain rfl := eq_zero_of_take_bytes_eq_nil (h.trans List.take_nil)
      rw [takeBytes_zero, takeBytes_zero]
    | cons c' s' =>
      by_cases hc : c = c'
      · subst hc
        rw [takeBytes, takeBytes]
        split
        · rw [utf8Bytes_cons, utf8Bytes_cons, List.take_append, List.take_append,
            List.append_cancel_left_eq, String.length_utf8EncodeChar] at h
          rw [ih h]
        · rfl
      · -- different characters do not lie before byte `k` as a whole
        have hk : ¬ c.utf8Size ≤ k := fun hk => hc (head_eq_of_bytes_eq hk h)
        have hk' : ¬ c'.utf8Size ≤ k := fun hk' => hc (head_eq_of_bytes_eq hk' h.symm).symm
        rw [takeBytes, if_neg hk, takeBytes, if_neg hk']

/-! ## Cursors -/

namespace Cursor

variable {k o : Nat} {x : Char} {rest : List Char} {c e : Cursor}

/-- The same place in the text cut at byte `k`. -/
def upTo (k : Nat) (c : Cursor) : Cursor :=
  ⟨c.offset, takeBytes (k - c.offset) c.rest⟩

@[simp]
theorem offset_upTo (k : Nat) (c : Cursor) : (c.upTo k).offset = c.offset := rfl

@[simp]
theorem upTo_nil (k o : Nat) : upTo k ⟨o, []⟩ = ⟨o, []⟩ := rfl

/-- A character before the cut stays. -/
theorem upTo_cons_of_le (h : o + x.utf8Size ≤ k) :
    upTo k ⟨o, x :: rest⟩ = ⟨o, x :: (upTo k ⟨o + x.utf8Size, rest⟩).rest⟩ := by
  have hfits : x.utf8Size ≤ k - o := by omega
  have hrest : k - o - x.utf8Size = k - (o + x.utf8Size) := by omega
  simp only [upTo, takeBytes, if_pos hfits, hrest]

theorem upTo_byte_of_le (hx : x.utf8Size = 1) (h : o + 1 ≤ k) :
    upTo k ⟨o, x :: rest⟩ = ⟨o, x :: (upTo k ⟨o + 1, rest⟩).rest⟩ := by
  rw [upTo_cons_of_le (by omega), hx]

/-- A character that reaches over the cut is gone. -/
theorem upTo_cons_of_lt (h : k < o + x.utf8Size) : upTo k ⟨o, x :: rest⟩ = ⟨o, []⟩ := by
  have hpos := x.utf8Size_pos
  have hfits : ¬ x.utf8Size ≤ k - o := by omega
  simp only [upTo, takeBytes, if_neg hfits]

namespace Passes

variable {d : Cursor} {s : List Char}

/-- Reading the same leads to the same place. -/
theorem unique (h : c.Passes s d) (h' : c.Passes s e) : d = e := by
  obtain ⟨o, rest⟩ := d
  obtain ⟨o', rest'⟩ := e
  obtain ⟨hrest, hoffset⟩ := h
  obtain ⟨hrest', hoffset'⟩ := h'
  have htail := hrest.symm.trans hrest'
  rw [List.append_cancel_left_eq] at htail
  rw [Cursor.mk.injEq]
  exact ⟨hoffset.trans hoffset'.symm, htail⟩

/-- What is passed before the cut is passed in the text that is cut. -/
theorem upTo (h : c.Passes s d) (hk : d.offset ≤ k) : (c.upTo k).Passes s (d.upTo k) := by
  obtain ⟨hrest, hoffset⟩ := h
  refine ⟨?_, hoffset⟩
  have hfits : byteLength s ≤ k - c.offset := by omega
  have hbytes : k - c.offset - byteLength s = k - d.offset := by omega
  simp only [Cursor.upTo, hrest, takeBytes_append_of_le hfits, hbytes]

end Passes

/-- What is passed in the text that is cut is what is passed before the cut. -/
theorem passes_upTo_iff {s : List Char} (hk : c.offset ≤ k) :
    (c.upTo k).Passes s e ↔ ∃ d, c.Passes s d ∧ d.offset ≤ k ∧ d.upTo k = e := by
  constructor
  · intro h
    obtain ⟨after, hafter⟩ := takeBytes_isPrefix (k - c.offset) c.rest
    have hlength := byteLength_takeBytes_le (k - c.offset) c.rest
    have hrest : takeBytes (k - c.offset) c.rest = s ++ e.rest := h.1
    rw [hrest, byteLength_append] at hlength
    rw [hrest, List.append_assoc] at hafter
    have hpass : c.Passes s ⟨c.offset + byteLength s, e.rest ++ after⟩ := ⟨hafter.symm, rfl⟩
    have hoffset : c.offset + byteLength s ≤ k := by omega
    exact ⟨_, hpass, hoffset, (hpass.upTo hoffset).unique h⟩
  · rintro ⟨d, hpass, hoffset, rfl⟩
    exact hpass.upTo hoffset

end Cursor

end BimEditor.Text
