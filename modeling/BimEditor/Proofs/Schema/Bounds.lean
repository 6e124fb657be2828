/-
  BimEditor.Proofs.Schema.Bounds

  The bounds of arrays against the numbers that they are read from, as rationals. A number sets a
  bound just when it is a whole number from zero to 2^64, and the bound is that number, or the
  largest bound for 2^64 (`bound?_of_value_eq`, `bound?_of_value_ne`). However an array type is
  spelled, its bounds are read from the numbers that its block of restrictions gives for them
  (`exists_array_of_read`). So all numbers but one are read exactly (`bounds_isExact_iff`).
-/
import BimEditor.Proofs.Schema.RoundTrip

namespace BimEditor

open BimEditor.Json BimEditor.Numeric

/-! ## What a number stands for -/

/-- The rational that a binary64 number stands for. -/
def Numeric.Binary64.value (x : Binary64) : ℚ :=
  if x.negative then -x.magnitude else x.magnitude

/-- The rational that a number stands for. -/
def Json.Number.value : Number → ℚ
  | .integer i => i.val
  | .float x => x.value

namespace Numeric

theorem pow2_of_nonpos {k : Int} (h : k ≤ 0) : pow2 k = 1 := by
  rw [pow2, Int.toNat_of_nonpos h]

namespace Binary64

variable {x : Binary64}

theorem magnitude_pos (h : x.mantissa ≠ 0) : 0 < x.magnitude := by
  unfold magnitude
  positivity

/-- A binary64 number that is not below zero is its magnitude, also if it is a negative zero. -/
theorem value_eq_magnitude (h : ¬ (x.negative = true ∧ x.mantissa ≠ 0)) :
    x.value = x.magnitude := by
  unfold value
  split
  · next hneg =>
    have hm : x.mantissa = 0 := by
      by_contra hm
      exact h ⟨hneg, hm⟩
    rw [magnitude, hm, Nat.cast_zero, zero_mul, neg_zero]
  · rfl

theorem value_neg (h : x.negative = true ∧ x.mantissa ≠ 0) : x.value < 0 := by
  rw [value, if_pos h.1]
  exact neg_neg_of_pos (magnitude_pos h.2)

/-- The whole number that a magnitude is, if it is one. -/
theorem wholeMagnitude?_eq_some_iff {k : Nat} : x.wholeMagnitude? = some k ↔ x.magnitude = k := by
  unfold wholeMagnitude? magnitude
  split
  · next h =>
    rw [Option.some.injEq, ← @Nat.cast_inj ℚ, Nat.cast_mul, pow2_eq,
      pow2_of_nonpos (Int.neg_nonpos_of_nonneg h), Nat.cast_one, mul_one]
  · next h =>
    -- below zero the power is a unit fraction, and the mantissa counts these units
    have hpos : 0 < pow2 (-x.exponent) := pow2_pos _
    have hunit : (2 : ℚ) ^ x.exponent = 1 / pow2 (-x.exponent) := by
      rw [← pow2_div, pow2_of_nonpos (Int.le_of_lt (Int.not_le.1 h)), Nat.cast_one]
    have hcast : (0 : ℚ) < pow2 (-x.exponent) := by exact_mod_cast hpos
    rw [hunit, mul_one_div, div_eq_iff hcast.ne', ← Nat.cast_mul, Nat.cast_inj]
    generalize pow2 (-x.exponent) = unit at hpos
    dsimp only
    constructor
    · intro hsome
      split at hsome
      · next hmod =>
        obtain rfl := Option.some.inj hsome
        exact (Nat.div_mul_cancel (Nat.dvd_of_mod_eq_zero hmod)).symm
      · cases hsome
    · intro hm
      rw [hm, Nat.mul_mod_left, if_pos rfl, Nat.mul_div_cancel _ hpos]

end Binary64

end Numeric

/-! ## The bound that a number sets -/

/-- A whole number from zero to 2^64 sets itself as a bound, but 2^64 the largest bound. -/
theorem bound?_of_value_eq {n : Number} {k : Nat} (h : n.value = k) :
    bound? n
      = if k ≤ largestBound + 1 then some (UInt64.ofNat (min k largestBound)) else none := by
  cases n with
  | integer i =>
    -- an integer that is kept exactly never reaches the edge
    have hvalue : (i.val : ℚ) = k := h
    have hk : i.val = k := by exact_mod_cast hvalue
    have hle : k ≤ largestBound := by
      have hfits := i.fits.2
      rw [hk] at hfits
      exact_mod_cast hfits
    rw [bound?, WideInt.toUInt64?, hk, if_pos (Int.natCast_nonneg k), Int.toNat_natCast,
      if_pos (Nat.le_succ_of_le hle), Nat.min_eq_left hle]
  | float x =>
    have hsign : ¬ (x.negative = true ∧ x.mantissa ≠ 0) := by
      intro hneg
      have hlt : (k : ℚ) < 0 := h ▸ Binary64.value_neg hneg
      exact absurd hlt (not_lt.2 (Nat.cast_nonneg k))
    have hwhole : x.wholeMagnitude? = some k :=
      Binary64.wholeMagnitude?_eq_some_iff.2 ((Binary64.value_eq_magnitude hsign).symm.trans h)
    rw [bound?, if_neg hsign, hwhole]

/-- All other numbers set no bound. -/
theorem bound?_of_value_ne {n : Number} (h : ∀ k : Nat, n.value ≠ k) : bound? n = none := by
  cases n with
  | integer i =>
    rw [bound?, WideInt.toUInt64?, if_neg]
    intro hnonneg
    obtain ⟨k, hk⟩ := Int.eq_ofNat_of_zero_le hnonneg
    exact h k (by rw [Number.value, hk, Int.cast_natCast])
  | float x =>
    rw [bound?]
    split
    · rfl
    · next hsign =>
      split
      · next k hwhole =>
        refine absurd ?_ (h k)
        exact (Binary64.value_eq_magnitude hsign).trans
          (Binary64.wholeMagnitude?_eq_some_iff.1 hwhole)
      · rfl

/-- What is read from a number is exact: there is a bound just for the whole numbers from zero to
    the largest bound, and the bound is that number. -/
def IsExact (n : Number) (bound : Option UInt64) : Prop :=
  (bound.isSome = true ↔ ∃ k : Nat, k ≤ largestBound ∧ n.value = k)
    ∧ ∀ b ∈ bound, n.value = b.toNat

/-- Of the whole numbers, only the one behind the largest bound has an inexact bound. -/
theorem isExact_bound?_of_value_eq {n : Number} {k : Nat} (h : n.value = k) :
    IsExact n (bound? n) ↔ k ≠ largestBound + 1 := by
  rw [bound?_of_value_eq h]
  by_cases hle : k ≤ largestBound
  · rw [if_pos (Nat.le_succ_of_le hle), Nat.min_eq_left hle]
    have hword : (UInt64.ofNat k).toNat = k := UInt64.toNat_ofNat_of_lt' (Nat.lt_succ_of_le hle)
    refine iff_of_true ⟨⟨fun _ => ⟨k, hle, h⟩, fun _ => rfl⟩, ?_⟩ (by omega)
    intro b hb
    obtain rfl := Option.some.inj hb
    rw [hword, h]
  · have hnone : ¬ ∃ j : Nat, j ≤ largestBound ∧ n.value = j := by
      rintro ⟨j, hj, hvalue⟩
      rw [h, Nat.cast_inj] at hvalue
      omega
    -- behind the largest bound there should be none, and one number sets one all the same
    by_cases hlimit : k = largestBound + 1
    · rw [if_pos (Nat.le_of_eq hlimit)]
      exact iff_of_false (fun hexact => hnone (hexact.1.1 rfl)) (not_not_intro hlimit)
    · rw [if_neg (by omega)]
      refine iff_of_true ⟨⟨fun hsome => ?_, fun hk => absurd hk hnone⟩, by simp⟩ hlimit
      cases hsome

/-- The one number with an inexact bound is 2^64, the float next to the largest bound. -/
theorem isExact_bound?_iff {n : Number} : IsExact n (bound? n) ↔ n.value ≠ 2 ^ 64 := by
  have hlimit : (2 : ℚ) ^ 64 = ((largestBound + 1 : Nat) : ℚ) := by norm_num [largestBound]
  rw [hlimit]
  by_cases hwhole : ∃ k : Nat, n.value = k
  · obtain ⟨k, hk⟩ := hwhole
    rw [isExact_bound?_of_value_eq hk, hk, Ne, Ne, Nat.cast_inj]
  · have hne : ∀ k : Nat, n.value ≠ k := fun k hk => hwhole ⟨k, hk⟩
    rw [bound?_of_value_ne hne]
    refine iff_of_true ⟨?_, by simp⟩ (hne _)
    simp [hne]

/-! ## Array types, however they are spelled -/

/-- What a record with those field names holds in one of them. -/
def Json.Value.held? (names : List String) (v : Value) (name : String) : Option Value :=
  (v.record? names).bind fun field => (field name).map Subtype.val

theorem Json.Value.held?_eq {names : List String} {v : Value} {field : Fields v}
    (h : v.record? names = some field) (name : String) :
    v.held? names name = (field name).map Subtype.val := by
  rw [held?, h, Option.bind_some]

theorem Json.Value.held?_object (names : List String) (members : List (String × Value))
    (name : String) : (Value.object members).held? names name = members.lookup name := by
  obtain ⟨field, hrecord, hfield⟩ := record?_object names members
  rw [held?_eq hrecord, hfield]

theorem Json.Value.isNull_of_held? {names : List String} {v w : Value} {name : String}
    (h : v.held? names name = some w) : v.isNull = false := by
  unfold isNull
  split
  · cases h
  · rfl

namespace TypeDescription

/-- The fields of the restrictions on an array. -/
def boundFields : List String :=
  ["min", "max", "value"]

/-- `v` is tagged as an array, and `block` restricts it to elements of the type that `element`
    describes. -/
structure DescribesArray (v block element : Value) : Prop where
  tagged : v.held? fieldNames "dataType" = some (.string "Array")
  restricted : v.held? fieldNames "arrayRestrictions" = some block
  typed : block.held? boundFields "value" = some element
  present : element.isNull = false

/-- The parts of a description that decide on an array. -/
theorem exists_parts_of_ofValue? {v : Value} {t : TypeDescription} (h : ofValue? v = some t) :
    ∃ field tag notes r, v.record? fieldNames = some field
      ∧ defaulted (field "dataType") "" readString = some tag
      ∧ optional (field "arrayRestrictions") readArrayBlock = some r.array
      ∧ t = ofRestrictions notes tag r := by
  rw [ofValue?] at h
  simp only [Option.bind_eq_bind, Option.bind_eq_some_iff] at h
  obtain ⟨field, hrecord, tag, htag, kind, -, inherits, -, options, -, array, harray, members, -,
    target, -, hresult⟩ := h
  exact ⟨field, tag, ⟨kind, inherits.getD []⟩, ⟨options, array, members, target⟩, hrecord, htag,
    harray, (Option.some.inj hresult).symm⟩

/-- The parts of a block of restrictions. -/
theorem exists_parts_of_readArrayBlock {v block : Value} {h : sizeOf block < sizeOf v}
    {min max : Option Number} {element : Option TypeDescription}
    (hread : readArrayBlock block h = some (min, max, element)) :
    ∃ field, block.record? boundFields = some field
      ∧ optional (field "min") readNumber = some min
      ∧ optional (field "max") readNumber = some max
      ∧ optional (field "value") (fun u _ => ofValue? u) = some element := by
  rw [readArrayBlock] at hread
  simp only [Option.bind_eq_bind, Option.bind_eq_some_iff] at hread
  obtain ⟨field, hrecord, min', hmin, max', hmax, element', helement, hresult⟩ := hread
  cases hresult
  exact ⟨field, hrecord, hmin, hmax, helement⟩

/-- Whatever is read from the description of an array type is an array type, with the bounds that
    are set by the numbers given for them. -/
theorem exists_array_of_read {v block u : Value} {t : TypeDescription}
    (hv : DescribesArray v block u) (hread : ofValue? v = some t) :
    ∃ notes, ∃ min max : Option Number, ∃ element,
      t = .array notes (min.bind bound?) (max.bind bound?) element
        ∧ ofValue? u = some element
        ∧ (∀ n, block.held? boundFields "min" = some (.number n) → min = some n)
        ∧ ∀ n, block.held? boundFields "max" = some (.number n) → max = some n := by
  obtain ⟨field, tag, notes, r, hrecord, htag, harray, rfl⟩ := exists_parts_of_ofValue? hread
  have htagged := hv.tagged
  have hrestricted := hv.restricted
  rw [Value.held?_eq hrecord] at htagged hrestricted
  -- the tag and the two blocks are there, so the readers of these fields got something
  have harrayTag : defaulted (field "dataType") "" readString = some "Array" :=
    @defaulted_present _ _ readString (.string "Array") _ _ (fun _ => rfl) _ htagged
  obtain rfl := Option.some.inj (htag.symm.trans harrayTag)
  obtain ⟨_, ⟨min, max, o⟩, hblock, hr⟩ :=
    exists_of_optional hrestricted (Value.isNull_of_held? hv.typed) harray
  obtain ⟨inner, hinner, hmin, hmax, ho⟩ := exists_parts_of_readArrayBlock hblock
  have htyped := hv.typed
  rw [Value.held?_eq hinner] at htyped
  obtain ⟨_, element, helement, rfl⟩ := exists_of_optional htyped hv.present ho
  refine ⟨notes, min, max, element, ?_, helement, ?_, ?_⟩
  · rw [ofRestrictions, hr]
  · intro n hn
    rw [Value.held?_eq hinner] at hn
    exact eq_some_of_optional_readNumber hn hmin
  · intro n hn
    rw [Value.held?_eq hinner] at hn
    exact eq_some_of_optional_readNumber hn hmax

/-- An array type as it is written, with any numbers for its bounds. -/
def numberedArray (notes : Annotations) (min max : Option Number) (u : Value) : Value :=
  .object (headMembers (.bareArray notes) ++ [("arrayRestrictions", numberedBlock min max u)])

theorem ofValue?_numberedArray {u : Value} {element : TypeDescription} (notes : Annotations)
    (min max : Option Number) (helement : ofValue? u = some element) :
    ofValue? (numberedArray notes min max u)
      = some (.array notes (min.bind bound?) (max.bind bound?) element) :=
  @ofValue?_headMembers (.bareArray notes) [("arrayRestrictions", numberedBlock min max u)]
    ⟨none, some (min, max, some element), none, none⟩ ⟨rfl, rfl, rfl⟩ (fun _ => optional_absent)
    (fun _ => optional_present rfl (readArrayBlock_numbered min max helement))
    (fun _ => optional_absent) (fun _ => optional_absent)

theorem describesArray_numberedArray {u : Value} {element : TypeDescription} (notes : Annotations)
    (min max : Option Number) (helement : ofValue? u = some element) :
    DescribesArray (numberedArray notes min max u) (numberedBlock min max u) u where
  tagged := by
    rw [numberedArray, Value.held?_object, List.lookup_append, lookup_headMembers]
    rfl
  restricted := by
    rw [numberedArray, Value.held?_object, List.lookup_append, lookup_headMembers]
    rfl
  typed := by
    rw [numberedBlock, Value.held?_object]
    simp [List.lookup_append]
  present := isNull_of_ofValue? helement

theorem held?_numberedBlock (min max : Option Number) (u : Value) :
    (numberedBlock min max u).held? boundFields "min" = min.map Value.number
      ∧ (numberedBlock min max u).held? boundFields "max" = max.map Value.number := by
  rw [numberedBlock, Value.held?_object, Value.held?_object]
  simp [List.lookup_append, List.lookup_cons]

/-! ## Bounds against numbers -/

/-- A number other than 2^64, and no other, is read exactly wherever it is given as a bound: what is
    read from the description of an array type is an array type with that bound. As it is written,
    such a description is read with any number. -/
theorem bounds_isExact_iff (n : Number) :
    (∀ v block u t, DescribesArray v block u → ofValue? v = some t →
      ∃ notes min max element, t = .array notes min max element ∧ ofValue? u = some element
        ∧ (block.held? boundFields "min" = some (.number n) → (IsExact n min ↔ n.value ≠ 2 ^ 64))
        ∧ (block.held? boundFields "max" = some (.number n) → (IsExact n max ↔ n.value ≠ 2 ^ 64)))
      ∧ ∀ notes u element, ofValue? u = some element →
        DescribesArray (numberedArray notes (some n) (some n) u)
            (numberedBlock (some n) (some n) u) u
          ∧ (numberedBlock (some n) (some n) u).held? boundFields "min" = some (.number n)
          ∧ (numberedBlock (some n) (some n) u).held? boundFields "max" = some (.number n)
          ∧ (ofValue? (numberedArray notes (some n) (some n) u)).isSome = true := by
  constructor
  · intro v block u t hv hread
    obtain ⟨notes, min, max, element, rfl, helement, hmin, hmax⟩ := exists_array_of_read hv hread
    refine ⟨notes, _, _, element, rfl, helement, ?_, ?_⟩
    · intro hn
      rw [hmin n hn]
      exact isExact_bound?_iff
    · intro hn
      rw [hmax n hn]
      exact isExact_bound?_iff
  · intro notes u element helement
    obtain ⟨hmin, hmax⟩ := held?_numberedBlock (some n) (some n) u
    refine ⟨describesArray_numberedArray notes _ _ helement, hmin, hmax, ?_⟩
    rw [ofValue?_numberedArray notes _ _ helement]
    rfl

/-- Three, spelled as a float. -/
def three : Binary64 :=
  ⟨false, 6755399441055744, -51, by decide⟩

/-- The float 2^64. -/
def beyondWords : Binary64 :=
  ⟨false, fullMantissa, 12, by decide⟩

theorem value_three : (Number.float three).value = 3 := by
  norm_num [Number.value, Binary64.value, Binary64.magnitude, three]

theorem value_beyondWords : (Number.float beyondWords).value = 2 ^ 64 := by
  norm_num [Number.value, Binary64.value, Binary64.magnitude, beyondWords, fullMantissa]

/-- The type of real numbers, by its tag. -/
def realTag : Value :=
  .object [("dataType", .string "Real")]

/-- The restrictions on an array with these two numbers for bounds, its fields in their order. -/
def listedBlock : Value :=
  .array [.number (.float three), .number (.float beyondWords), realTag]

/-- The array type with these restrictions, its fields in their order. -/
def listedArray : Value :=
  .array [.string "Array", .null, .null, .null, listedBlock]

theorem bounds_isExact_iff_listed :
    IsExact (.float three) (some 3)
      ∧ ¬ IsExact (.float beyondWords) (some 18446744073709551615)
      ∧ (ofValue? (numberedArray {} (some (.float beyondWords)) (some (.float beyondWords))
        realTag)).isSome = true := by
  have hread : ofValue? listedArray
      = some (.array {} (some 3) (some 18446744073709551615) (.primitive {} .real)) := by
    decide +kernel
  have hreal : ofValue? realTag = some (.primitive {} .real) := by decide +kernel
  have hlisted : DescribesArray listedArray listedBlock realTag := ⟨rfl, rfl, rfl, rfl⟩
  obtain ⟨_, _, _, _, hthree, -, hmin, -⟩ :=
    (bounds_isExact_iff (.float three)).1 _ _ _ _ hlisted hread
  obtain ⟨_, _, _, _, hbeyond, -, -, hmax⟩ :=
    (bounds_isExact_iff (.float beyondWords)).1 _ _ _ _ hlisted hread
  cases hthree
  cases hbeyond
  refine ⟨(hmin rfl).2 ?_, fun hexact => (hmax rfl).1 hexact value_beyondWords,
    ((bounds_isExact_iff (.float beyondWords)).2 {} realTag _ hreal).2.2.2⟩
  rw [value_three]
  norm_num

/-- Not every number is read exactly: 2^64 sets the largest bound. -/
theorem not_forall_isExact :
    ¬ ∀ v block u notes min max element n, DescribesArray v block u →
      ofValue? v = some (.array notes min max element) →
      block.held? boundFields "min" = some (.number n) → IsExact n min := by
  intro hall
  have hreal : ofValue? realTag = some (.primitive {} .real) := by decide +kernel
  have hread := ofValue?_numberedArray {} (some (.float beyondWords)) none hreal
  have hexact := hall _ _ realTag _ _ _ _ (.float beyondWords)
    (describesArray_numberedArray {} (some (.float beyondWords)) none hreal) hread
    (held?_numberedBlock _ _ _).1
  exact isExact_bound?_iff.1 hexact value_beyondWords

end TypeDescription

end BimEditor
