/-
  BimEditor.Proofs.Bytes.PlainScan

  The closing bracket of a pair, searched in the plainest way: a machine reads one byte after the
  other and keeps a depth and two flags, of which one says that it is inside a string and the other
  that a backslash hides the next byte. It knows no characters and skips nothing.

  Over the bytes of one character the machine does what it would do if it read that character at
  once (`closeBytes_encode`, `foldl_encode`): no byte of a longer character means anything to it,
  and the first of them takes the backslash. So the search that skips whole strings finds the same
  bracket (`closeBytes_eq_closeFrom`), from any byte on, and the flags are those of the scan that
  counts elements (`flags_foldl`).
-/
import BimEditor.Proofs.Bytes.Scanners

namespace BimEditor.Bytes

open BimEditor.Text BimEditor.Scan

/-- What the search for a closing bracket keeps track of. -/
structure CloseScan where
  /-- The open brackets of the family, with the one whose partner is searched. -/
  depth : Nat := 1
  inString : Bool := false
  escaped : Bool := false
deriving DecidableEq, Repr, Inhabited

/-- Take one symbol into account, of which `is` tells whether it is a given character. -/
def CloseScan.step (d : Delimiter) (s : CloseScan) (is : Char → Bool) : CloseScan :=
  if s.escaped then { s with escaped := false }
  else if s.inString then
    if is '\\' then { s with escaped := true }
    else if is '"' then { s with inString := false }
    else s
  else if is '"' then { s with inString := true }
  else if is d.opening then { s with depth := s.depth + 1 }
  else if is d.closing then { s with depth := s.depth - 1 }
  else s

/-- Take one byte into account. -/
def CloseScan.read (d : Delimiter) (s : CloseScan) (b : UInt8) : CloseScan :=
  s.step d (isByte · b)

/-- The offset of the byte that brings the depth down to zero, of bytes that start at `pos`. -/
def closeBytes (d : Delimiter) (s : CloseScan) (pos : Nat) : List UInt8 → Option Nat
  | [] => none
  | b :: bytes =>
    if (s.read d b).depth = 0 then some pos else closeBytes d (s.read d b) (pos + 1) bytes

section

variable {d : Delimiter} {s : CloseScan} {pos depth inner : Nat} {c : Char} {b : UInt8}
  {bytes rest : List UInt8}

/-! ## Outside of strings -/

theorem step_opening : CloseScan.step d ⟨depth, false, false⟩ (d.opening == ·)
    = ⟨depth + 1, false, false⟩ := by
  simp [CloseScan.step, opening_ne_quote]

theorem step_closing : CloseScan.step d ⟨depth, false, false⟩ (d.closing == ·)
    = ⟨depth - 1, false, false⟩ := by
  simp [CloseScan.step, closing_ne_quote, closing_ne_opening]

theorem step_other (hquote : c ≠ '"') (hopen : c ≠ d.opening) (hclose : c ≠ d.closing) :
    CloseScan.step d ⟨depth, false, false⟩ (c == ·) = ⟨depth, false, false⟩ := by
  simp [CloseScan.step, hquote, hopen, hclose]

/-! ## The bytes of one character -/

/-- Only ASCII characters mean anything. -/
theorem step_congr {is is' : Char → Bool} (h : ∀ y : Char, y.toNat < 0x80 → is y = is' y) :
    s.step d is = s.step d is' := by
  have hopening := h d.opening (by cases d <;> decide)
  have hclosing := h d.closing (by cases d <;> decide)
  simp only [CloseScan.step, h '\\' (by decide), h '"' (by decide), hopening, hclosing]

/-- A symbol that means nothing takes the backslash before it. -/
theorem step_of_unmarked {is : Char → Bool} (h : ∀ y : Char, y.toNat < 0x80 → is y = false) :
    s.step d is = { s with escaped := false } := by
  have hplain : s.step d is = s.step d fun _ => false := step_congr h
  rw [hplain]
  obtain ⟨depth, inString, escaped⟩ := s
  cases escaped <;> cases inString <;> rfl

theorem read_high (hb : 0x80 ≤ b.toNat) : s.read d b = { s with escaped := false } :=
  step_of_unmarked fun _ hy => isByte_of_high hy hb

theorem step_long (hc : 0x80 ≤ c.toNat) : s.step d (c == ·) = { s with escaped := false } := by
  refine step_of_unmarked fun y hy => ?_
  rw [beq_eq_false_iff_ne]
  rintro rfl
  omega

theorem read_short (hc : c.toNat < 0x80) :
    s.read d (UInt8.ofNat c.toNat) = s.step d (c == ·) :=
  step_congr fun _ hy => (ByteClass.single hy).short c hc

/-- Bytes of longer characters are passed. -/
theorem closeBytes_high (hhigh : ∀ b ∈ bytes, 0x80 ≤ b.toNat) (hescaped : s.escaped = false)
    (hdepth : s.depth ≠ 0) :
    closeBytes d s pos (bytes ++ rest) = closeBytes d s (pos + bytes.length) rest := by
  induction bytes generalizing pos with
  | nil => rfl
  | cons b bytes ih =>
    obtain ⟨hb, hbytes⟩ := List.forall_mem_cons.1 hhigh
    have hsame : s.read d b = s := by
      rw [read_high hb, ← hescaped]
    rw [List.cons_append, closeBytes, hsame, if_neg hdepth, ih hbytes, List.length_cons,
      Nat.add_assoc, Nat.add_comm 1]

/-- A longer character is stored in a first byte and others, all of which mean nothing. -/
theorem exists_encode_long (hc : 0x80 ≤ c.toNat) :
    ∃ first others, String.utf8EncodeChar c = first :: others ∧ 0x80 ≤ first.toNat
      ∧ ∀ b ∈ others, 0x80 ≤ b.toNat := by
  obtain ⟨first, others, hencode⟩ :=
    List.exists_cons_of_ne_nil (String.utf8EncodeChar_ne_nil (c := c))
  have hhigh : ∀ b ∈ first :: others, 0x80 ≤ b.toNat := fun b hb =>
    encode_long hc (hencode ▸ hb)
  exact ⟨first, others, hencode, List.forall_mem_cons.1 hhigh⟩

/-- Over the bytes of a character the search does what it does at the character. -/
theorem closeBytes_encode (hdepth : s.depth ≠ 0) :
    closeBytes d s pos (String.utf8EncodeChar c ++ rest)
      = if (s.step d (c == ·)).depth = 0 then some pos
        else closeBytes d (s.step d (c == ·)) (pos + c.utf8Size) rest := by
  by_cases hc : c.toNat < 0x80
  · rw [encode_short hc, List.singleton_append, closeBytes, read_short hc, utf8Size_of_ascii hc]
  · have hlong := Nat.le_of_not_lt hc
    obtain ⟨first, others, hencode, hfirst, hothers⟩ := exists_encode_long hlong
    have hlength : 1 + others.length = c.utf8Size := by
      rw [← String.length_utf8EncodeChar, hencode, List.length_cons, Nat.add_comm]
    have hread : s.read d first = s.step d (c == ·) := by
      rw [read_high hfirst, step_long hlong]
    have hdepth' : (s.step d (c == ·)).depth ≠ 0 := by
      rw [step_long hlong]
      exact hdepth
    have hescaped : (s.step d (c == ·)).escaped = false := by
      rw [step_long hlong]
    rw [hencode, List.cons_append, closeBytes, hread, if_neg hdepth', if_neg hdepth',
      closeBytes_high hothers hescaped hdepth', Nat.add_assoc, hlength]

/-- So do the depth and the flags. -/
theorem foldl_encode (s : CloseScan) (c : Char) :
    (String.utf8EncodeChar c).foldl (CloseScan.read d) s = s.step d (c == ·) := by
  by_cases hc : c.toNat < 0x80
  · rw [encode_short hc, List.foldl_cons, List.foldl_nil, read_short hc]
  · have hlong := Nat.le_of_not_lt hc
    obtain ⟨first, others, hencode, hfirst, hothers⟩ := exists_encode_long hlong
    rw [hencode, List.foldl_cons, read_high hfirst, step_long hlong]
    -- the first byte has taken a backslash before it, and the others find none
    clear hencode
    induction others with
    | nil => rfl
    | cons b others ih =>
      obtain ⟨hb, hothers⟩ := List.forall_mem_cons.1 hothers
      rw [List.foldl_cons, read_high hb]
      exact ih hothers

/-! ## Strings and brackets -/

theorem closeBytes_cons (hdepth : s.depth ≠ 0) (tail : List Char) :
    closeBytes d s pos (utf8Bytes (c :: tail))
      = if (s.step d (c == ·)).depth = 0 then some pos
        else closeBytes d (s.step d (c == ·)) (pos + c.utf8Size) (utf8Bytes tail) := by
  rw [utf8Bytes_cons, closeBytes_encode hdepth]

/-- Inside a string, the search goes on where the string is skipped to. -/
theorem closeBytes_inString (hdepth : depth ≠ 0) (c : Cursor) :
    closeBytes d ⟨depth, true, false⟩ c.offset (utf8Bytes c.rest)
      = (afterString c).bind fun next =>
          closeBytes d ⟨depth, false, false⟩ next.offset (utf8Bytes next.rest) := by
  induction c using stringInduction with
  | nil o => rfl
  | quote o rest =>
    have hstep : CloseScan.step d ⟨depth, true, false⟩ ('"' == ·) = ⟨depth, false, false⟩ := rfl
    rw [closeBytes_cons hdepth, hstep, if_neg hdepth]
    rfl
  | lastSlash o =>
    have hstep : CloseScan.step d ⟨depth, true, false⟩ ('\\' == ·) = ⟨depth, true, true⟩ := rfl
    rw [closeBytes_cons hdepth, hstep, if_neg hdepth]
    rfl
  | slash o c rest ih =>
    have hstep : CloseScan.step d ⟨depth, true, false⟩ ('\\' == ·) = ⟨depth, true, true⟩ := rfl
    have hhidden : CloseScan.step d ⟨depth, true, true⟩ (c == ·) = ⟨depth, true, false⟩ := rfl
    rw [closeBytes_cons hdepth, hstep, if_neg hdepth, closeBytes_cons hdepth, hhidden,
      if_neg hdepth, afterString_slash]
    exact ih
  | other o c rest hquote hslash ih =>
    have hstep : CloseScan.step d ⟨depth, true, false⟩ (c == ·) = ⟨depth, true, false⟩ := by
      simp [CloseScan.step, hquote, hslash]
    rw [closeBytes_cons hdepth, hstep, if_neg hdepth, afterString_other hquote hslash]
    exact ih

/-- Outside of strings the machine finds the bracket that the search finds. -/
theorem closeBytes_eq_closeFrom (d : Delimiter) (inner : Nat) (c : Cursor) :
    closeBytes d ⟨inner + 1, false, false⟩ c.offset (utf8Bytes c.rest) = closeFrom d inner c := by
  induction c using scanInduction generalizing inner with
  | nil o =>
    rw [closeFrom_nil]
    rfl
  | quote o rest ih =>
    have hstep : CloseScan.step d ⟨inner + 1, false, false⟩ ('"' == ·)
        = ⟨inner + 1, true, false⟩ := rfl
    have hstring := closeBytes_inString (d := d) (Nat.succ_ne_zero inner) ⟨o + 1, rest⟩
    rw [closeBytes_cons (Nat.succ_ne_zero inner), hstep, if_neg (Nat.succ_ne_zero inner),
      closeFrom_quote]
    refine hstring.trans ?_
    cases hnext : Scan.afterString ⟨o + 1, rest⟩ with
    | none => rfl
    | some next => exact ih next hnext inner
  | other o c rest hquote ih =>
    rw [closeBytes_cons (Nat.succ_ne_zero inner)]
    by_cases hopen : c = d.opening
    · subst hopen
      have hrest := ih (inner + 1)
      rw [utf8Size_opening] at hrest ⊢
      rw [step_opening, if_neg (Nat.succ_ne_zero _), closeFrom_opening]
      exact hrest
    · by_cases hclose : c = d.closing
      · subst hclose
        rw [step_closing, Nat.add_sub_cancel]
        cases inner with
        | zero => rw [if_pos rfl, closeFrom_closing_zero]
        | succ inner =>
          have hrest := ih inner
          rw [utf8Size_closing] at hrest ⊢
          rw [if_neg (Nat.succ_ne_zero inner), closeFrom_closing_succ]
          exact hrest
      · rw [step_other hquote hopen hclose, if_neg (Nat.succ_ne_zero inner),
          closeFrom_other hquote hopen hclose]
        exact ih inner

/-- The search may begin at any byte, also inside of a character. -/
theorem closeBytes_near {text : List Char} {cursor : Cursor} (h : Near text pos cursor) :
    closeBytes d {} pos ((utf8Bytes text).drop pos) = closeFrom d 0 cursor := by
  obtain ⟨-, bytes, hdrop, hpos, hhigh⟩ := h
  rw [hdrop, closeBytes_high hhigh rfl Nat.one_ne_zero, hpos]
  exact closeBytes_eq_closeFrom d 0 cursor

/-- Behind the end of the text nothing is found. -/
theorem closeBytes_behind {text : List Char} (h : byteLength text < pos) :
    closeBytes d s pos ((utf8Bytes text).drop pos) = none := by
  rw [List.drop_of_length_le]
  · rfl
  · rw [length_utf8Bytes]
    exact Nat.le_of_lt h

/-! ## The flags -/

/-- Where the scan that counts elements agrees on the flags, it agrees behind the next character. -/
theorem flags_step {e : ElementScan} (hstring : s.inString = e.inString)
    (hescaped : s.escaped = e.escaped) (c : Char) :
    (s.step d (c == ·)).inString = (e.step c).inString
      ∧ (s.step d (c == ·)).escaped = (e.step c).escaped := by
  obtain ⟨depth, inString, escaped⟩ := s
  obtain ⟨commas, depth', inString', escaped'⟩ := e
  dsimp only at hstring hescaped
  subst hstring hescaped
  simp only [CloseScan.step, ElementScan.step, beq_iff_eq]
  cases escaped with
  | true => exact ⟨rfl, rfl⟩
  | false =>
    cases inString with
    | true =>
      simp only [Bool.false_eq_true, if_false, if_true]
      split
      · exact ⟨rfl, rfl⟩
      · split <;> exact ⟨rfl, rfl⟩
    | false =>
      simp only [Bool.false_eq_true, if_false]
      by_cases hquote : c = '"'
      · simp only [if_pos hquote, and_self]
      · -- whatever else the two scans count, they change no flag
        simp only [if_neg hquote, apply_ite CloseScan.inString, apply_ite CloseScan.escaped,
          apply_ite ElementScan.inString, apply_ite ElementScan.escaped, ite_self, and_self]

theorem flags_foldl {e : ElementScan} (hstring : s.inString = e.inString)
    (hescaped : s.escaped = e.escaped) (text : List Char) :
    ((utf8Bytes text).foldl (CloseScan.read d) s).inString
        = (text.foldl ElementScan.step e).inString
      ∧ ((utf8Bytes text).foldl (CloseScan.read d) s).escaped
        = (text.foldl ElementScan.step e).escaped := by
  induction text generalizing s e with
  | nil => exact ⟨hstring, hescaped⟩
  | cons c text ih =>
    obtain ⟨hstring', hescaped'⟩ := flags_step (d := d) hstring hescaped c
    rw [utf8Bytes_cons, List.foldl_append, foldl_encode, List.foldl_cons]
    exact ih hstring' hescaped'

/-! ## The search -/

/-- The closing bracket of a pair is the byte that brings the plain machine down to depth zero, in
    any text and from any byte on, whether it is searched over characters or in leaps over bytes.
    The machine knows strings and backslashes by the same rules as the scan that counts elements:
    behind any text the flags of both are the same. -/
theorem matchingClose_eq_closeBytes (d : Delimiter) (text : List Char) :
    (∀ start,
        Scan.matchingClose d text start = closeBytes d {} start ((utf8Bytes text).drop start)
          ∧ matchingClose d text start
            = some (closeBytes d {} start ((utf8Bytes text).drop start)))
      ∧ ((utf8Bytes text).foldl (CloseScan.read d) {}).inString
        = (text.foldl ElementScan.step {}).inString
      ∧ ((utf8Bytes text).foldl (CloseScan.read d) {}).escaped
        = (text.foldl ElementScan.step {}).escaped := by
  have hsearch : ∀ start,
      Scan.matchingClose d text start = closeBytes d {} start ((utf8Bytes text).drop start) := by
    intro start
    rw [Scan.matchingClose]
    split
    · next hbehind => exact (closeBytes_behind hbehind).symm
    · next hwithin => exact (closeBytes_near (near_ofOffset (Nat.le_of_not_lt hwithin))).symm
  refine ⟨fun start => ⟨hsearch start, ?_⟩, flags_foldl rfl rfl text⟩
  rw [matchingClose_eq, hsearch]

end

end BimEditor.Bytes
