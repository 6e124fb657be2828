/-
  BimEditor.Text.SipHash

  SipHash, a keyed hash of byte strings: four 64-bit words that take in the bytes eight at a time,
  the first byte of eight as the lowest one. How often the words are stirred for each eight bytes,
  and at the end, are parameters.
-/

namespace BimEditor.Text

/-- The key of a SipHash, and its numbers of rounds: for each word taken in, and at the end. -/
structure SipHash where
  key0 : UInt64 := 0
  key1 : UInt64 := 0
  wordRounds : Nat
  lastRounds : Nat
deriving DecidableEq, Repr

namespace SipHash

/-! ## Stirring -/

/-- The four words. -/
structure State where
  v0 : UInt64
  v1 : UInt64
  v2 : UInt64
  v3 : UInt64
deriving DecidableEq, Repr, Inhabited

/-- `x` rotated to the left by `k` bits, for `k` from 1 to 63. -/
def rotate (x k : UInt64) : UInt64 :=
  (x <<< k) ||| (x >>> (64 - k))

/-- Stir the words once. -/
def State.stir (s : State) : State :=
  let v0 := s.v0 + s.v1
  let v2 := s.v2 + s.v3
  let v1 := rotate s.v1 13 ^^^ v0
  let v3 := rotate s.v3 16 ^^^ v2
  let v0 := rotate v0 32 + v3
  let v2 := v2 + v1
  { v0 := v0
    v1 := rotate v1 17 ^^^ v2
    v2 := rotate v2 32
    v3 := rotate v3 21 ^^^ v0 }

/-- Stir the words a number of times. -/
def State.stirTimes (s : State) (rounds : Nat) : State :=
  Nat.repeat State.stir rounds s

/-- The words before anything was taken in. -/
def start (h : SipHash) : State where
  v0 := h.key0 ^^^ 0x736f6d6570736575
  v1 := h.key1 ^^^ 0x646f72616e646f6d
  v2 := h.key0 ^^^ 0x6c7967656e657261
  v3 := h.key1 ^^^ 0x7465646279746573

/-- Take a word in. -/
def takeWord (h : SipHash) (s : State) (word : UInt64) : State :=
  let stirred := { s with v3 := s.v3 ^^^ word }.stirTimes h.wordRounds
  { stirred with v0 := stirred.v0 ^^^ word }

/-! ## Bytes -/

/-- The words, and the bytes that do not fill a word yet. -/
structure Intake where
  state : State
  /-- The waiting bytes, the first one as the lowest. -/
  pending : UInt64 := 0
  /-- Number of bytes that came so far. -/
  size : Nat := 0

/-- Take a byte in. -/
def takeByte (h : SipHash) (i : Intake) (byte : UInt8) : Intake :=
  let place := i.size % 8
  let word := i.pending ||| (byte.toUInt64 <<< UInt64.ofNat (8 * place))
  if place = 7 then ⟨h.takeWord i.state word, 0, i.size + 1⟩
  else ⟨i.state, word, i.size + 1⟩

/-- The hash of all that was taken in. Its size, modulo 256, is the highest byte of the last
    word. -/
def finish (h : SipHash) (i : Intake) : UInt64 :=
  let s := h.takeWord i.state (i.pending ||| (UInt64.ofNat i.size <<< 56))
  let s := { s with v2 := s.v2 ^^^ 0xff }.stirTimes h.lastRounds
  s.v0 ^^^ s.v1 ^^^ s.v2 ^^^ s.v3

/-- The hash of a byte string. -/
def hash (h : SipHash) (bytes : List UInt8) : UInt64 :=
  h.finish (bytes.foldl h.takeByte { state := h.start })

end SipHash

/-- The bytes of a text in UTF-8. -/
def utf8Bytes (s : List Char) : List UInt8 :=
  s.flatMap String.utf8EncodeChar

end BimEditor.Text
