/-
  BimEditor.Text.Measure

  How long a piece of text is. Every offset in this library counts UTF-8 bytes; an editor's
  columns count UTF-16 code units. Text itself is handled as a list of characters, so an offset
  that was reached by walking over characters always lies on a character boundary.
-/

namespace BimEditor.Text

/-! ## Lengths -/

/-- Number of bytes that `s` takes in UTF-8. -/
def byteLength : List Char → Nat
  | [] => 0
  | c :: s => c.utf8Size + byteLength s

/-- Number of UTF-16 code units of a character: two beyond the basic plane. -/
def unitSize (c : Char) : Nat :=
  if c.toNat < 0x10000 then 1 else 2

/-- Number of code units that `s` takes in UTF-16. -/
def unitLength : List Char → Nat
  | [] => 0
  | c :: s => unitSize c + unitLength s

@[simp]
theorem byteLength_nil : byteLength [] = 0 := rfl

@[simp]
theorem byteLength_cons (c : Char) (s : List Char) :
    byteLength (c :: s) = c.utf8Size + byteLength s := rfl

@[simp]
theorem byteLength_append (s t : List Char) :
    byteLength (s ++ t) = byteLength s + byteLength t := by
  induction s with
  | nil => simp
  | cons c s ih => simp [ih, Nat.add_assoc]

@[simp]
theorem unitLength_nil : unitLength [] = 0 := rfl

@[simp]
theorem unitLength_cons (c : Char) (s : List Char) :
    unitLength (c :: s) = unitSize c + unitLength s := rfl

@[simp]
theorem unitLength_append (s t : List Char) :
    unitLength (s ++ t) = unitLength s + unitLength t := by
  induction s with
  | nil => simp
  | cons c s ih => simp [ih, Nat.add_assoc]

/-! ## Cutting at a byte count -/

/-- The longest beginning of `s` that takes at most `n` bytes. -/
def takeBytes : Nat → List Char → List Char
  | _, [] => []
  | n, c :: s => if c.utf8Size ≤ n then c :: takeBytes (n - c.utf8Size) s else []

/-- What is left of `s` without the characters that start before byte `n`. -/
def dropBytes : Nat → List Char → List Char
  | _, [] => []
  | n, c :: s => if n = 0 then c :: s else dropBytes (n - c.utf8Size) s

/-- `s` cut into its first `n` bytes and the rest; `none` if `s` is shorter, or if byte `n` lies
    inside a character. -/
def splitBytes? : Nat → List Char → Option (List Char × List Char)
  | n, [] => if n = 0 then some ([], []) else none
  | n, c :: s =>
    if n = 0 then some ([], c :: s)
    else if c.utf8Size ≤ n then
      (splitBytes? (n - c.utf8Size) s).map fun (taken, rest) => (c :: taken, rest)
    else none

/-- The piece of `s` from byte `start` up to byte `stop`. -/
def slice (start stop : Nat) (s : List Char) : List Char :=
  takeBytes (stop - start) (dropBytes start s)

theorem splitBytes?_eq_append {n : Nat} {s taken rest : List Char}
    (h : splitBytes? n s = some (taken, rest)) : s = taken ++ rest := by
  induction s generalizing n taken with
  | nil => grind [splitBytes?]
  | cons c s ih =>
    simp only [splitBytes?] at h
    split at h
    · grind
    · split at h
      · obtain ⟨⟨t, r⟩, ht, heq⟩ := Option.map_eq_some_iff.1 h
        grind
      · cases h

end BimEditor.Text
