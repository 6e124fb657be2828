/-
  BimEditor.Proofs.Schema.Labels

  What the label of a type tells. The label of an array spells its bounds and goes on with the label
  of its elements, so it is a text of the bounds, from the outermost array inwards, and of the tag
  of what the innermost array holds (`toList_label`). Bounds are spelled without blanks and end at
  one; no known tag has a blank. Both can therefore be read off the text (`shapeText_inj`), and types
  that are known by more than their tags share a label only if they agree in them (`label_eq_iff`).
-/
import BimEditor.Proofs.Schema.RoundTrip
import BimEditor.Schema.Tooltip
import Mathlib.Data.List.Basic

namespace BimEditor

/-- Texts that go on with a character at its first place agree before it and behind it. -/
theorem append_cons_inj {c : Char} {s t u v : List Char} (hs : c ∉ s) (ht : c ∉ t)
    (h : s ++ c :: u = t ++ c :: v) : s = t ∧ u = v := by
  induction s generalizing t with
  | nil =>
    cases t with
    | nil => exact ⟨rfl, (List.cons.inj h).2⟩
    | cons d t => exact absurd ((List.cons.inj h).1 ▸ List.mem_cons_self) ht
  | cons d s ih =>
    cases t with
    | nil => exact absurd ((List.cons.inj h).1 ▸ List.mem_cons_self) hs
    | cons e t =>
      obtain ⟨rfl, htail⟩ := List.cons.inj h
      obtain ⟨rfl, hrest⟩ := ih (fun hmem => hs (List.mem_cons_of_mem d hmem))
        (fun hmem => ht (List.mem_cons_of_mem d hmem)) htail
      exact ⟨rfl, hrest⟩

/-- The least and the greatest length of an array, as far as they are given. -/
abbrev LengthBounds := Option UInt64 × Option UInt64

namespace TypeDescription

/-! ## Arrays of arrays -/

/-- The type, the type of its elements, the type of theirs, as far as there are arrays. -/
def elementChain : TypeDescription → List TypeDescription
  | .array notes min max element => .array notes min max element :: elementChain element
  | t => [t]

/-- The bounds of the arrays in the chain, the outermost ones first. -/
def arrayBounds : TypeDescription → List (LengthBounds)
  | .array _ min max element => (min, max) :: arrayBounds element
  | _ => []

/-- The last type of the chain, which is no array of a known element type. -/
def innermost : TypeDescription → TypeDescription
  | .array _ _ _ element => innermost element
  | t => t

/-- More is known of the type than its tag. -/
def IsRecognized : TypeDescription → Prop
  | .unrecognized _ _ => False
  | _ => True

theorem innermost_mem_elementChain (t : TypeDescription) : t.innermost ∈ t.elementChain := by
  induction t using innermost.induct with
  | case1 notes min max element ih => exact List.mem_cons_of_mem _ ih
  | case2 t hbase =>
    cases t with
    | array notes min max element => exact absurd rfl (hbase notes min max element)
    | _ => exact List.mem_singleton_self _

theorem tag_mem_knownTags {t : TypeDescription} (h : t.IsRecognized) : t.tag ∈ knownTags := by
  cases t with
  | primitive notes type =>
    show type.tag ∈ knownTags
    cases type <;> decide
  | unrecognized notes tag => exact absurd h (by simp [IsRecognized])
  | _ => simp [tag, knownTags]

/-! ## Bounds -/

/-- A bound is spelled with digits, or with a star. -/
theorem mem_boundLabel {bound : Option UInt64} {c : Char} (h : c ∈ (boundLabel bound).toList) :
    bound = none ∧ c = '*' ∨ bound ≠ none ∧ c.isDigit = true := by
  cases bound with
  | none => exact .inl ⟨rfl, List.mem_singleton.1 h⟩
  | some n =>
    rw [boundLabel, Nat.toString_eq_repr, Nat.toList_repr] at h
    exact .inr ⟨by simp, Nat.isDigit_of_mem_toDigits (by decide) (by decide) h⟩

theorem not_mem_boundLabel (bound : Option UInt64) {c : Char} (hstar : c ≠ '*')
    (hdigit : c.isDigit = false) : c ∉ (boundLabel bound).toList := by
  intro h
  rcases mem_boundLabel h with ⟨-, hc⟩ | ⟨-, hc⟩
  · exact hstar hc
  · rw [hdigit] at hc
    cases hc

/-- A bound can be read off its label. -/
theorem boundLabel_inj {a b : Option UInt64}
    (h : (boundLabel a).toList = (boundLabel b).toList) : a = b := by
  have hstar : ∀ n : UInt64, '*' ∉ (boundLabel (some n)).toList := by
    intro n hmem
    rcases mem_boundLabel hmem with ⟨hnone, -⟩ | ⟨-, hdigit⟩
    · cases hnone
    · exact absurd hdigit (by decide)
  have hnone : '*' ∈ (boundLabel none).toList := List.mem_singleton_self '*'
  cases a with
  | none =>
    cases b with
    | none => rfl
    | some n =>
      rw [h] at hnone
      exact absurd hnone (hstar n)
  | some m =>
    cases b with
    | none =>
      rw [← h] at hnone
      exact absurd hnone (hstar m)
    | some n =>
      -- reading the digits back tells the numbers apart
      simp only [boundLabel, Nat.toString_eq_repr, Nat.toList_repr] at h
      have hvalue := congrArg (Nat.ofDigitChars 10 · 0) h
      simp only [Nat.ofDigitChars_ten_toDigits] at hvalue
      rw [UInt64.toNat_inj.1 hvalue]

/-- The bounds of an array as its label spells them: nothing if there are none. -/
def boundsText (bounds : LengthBounds) : List Char :=
  if bounds = (none, none) then []
  else
    '[' :: ((boundLabel bounds.1).toList
      ++ '.' :: '.' :: ((boundLabel bounds.2).toList ++ [']']))

theorem blank_not_mem_boundsText (bounds : LengthBounds) :
    ' ' ∉ boundsText bounds := by
  have hlabel : ∀ bound, ' ' ∉ (boundLabel bound).toList := fun bound =>
    not_mem_boundLabel bound (by decide) (by decide)
  unfold boundsText
  split <;> simp [hlabel]

/-- Both bounds can be read off: the first one ends at a point, the second one at the bracket. -/
theorem boundsText_inj {a b : LengthBounds} (h : boundsText a = boundsText b) :
    a = b := by
  have hpoint : ∀ bound, '.' ∉ (boundLabel bound).toList := fun bound =>
    not_mem_boundLabel bound (by decide) (by decide)
  unfold boundsText at h
  split at h
  · next ha =>
    split at h
    · next hb => rw [ha, hb]
    · cases h
  · split at h
    · cases h
    · obtain ⟨hmin, hrest⟩ := append_cons_inj (hpoint _) (hpoint _) (List.cons.inj h).2
      have hmax := List.append_cancel_right (List.cons.inj hrest).2
      exact Prod.ext (boundLabel_inj hmin) (boundLabel_inj hmax)

/-! ## Labels -/

/-- The label of arrays with such bounds around a type of that tag. -/
def shapeText (tag : String) : List (LengthBounds) → List Char
  | [] => tag.toList
  | bounds :: inner =>
    ['A', 'r', 'r', 'a', 'y']
      ++ (boundsText bounds ++ ' ' :: 'o' :: 'f' :: ' ' :: shapeText tag inner)

theorem toList_label_array (notes : Annotations) (min max : Option UInt64)
    (element : TypeDescription) :
    (label (.array notes min max element)).toList
      = ['A', 'r', 'r', 'a', 'y']
        ++ (boundsText (min, max) ++ ' ' :: 'o' :: 'f' :: ' ' :: (label element).toList) := by
  cases min <;> cases max <;> simp [label, boundsText]

/-- A label spells the bounds of the arrays and the tag of what the innermost one holds. -/
theorem toList_label (t : TypeDescription) :
    (label t).toList = shapeText t.innermost.tag t.arrayBounds := by
  induction t using innermost.induct with
  | case1 notes min max element ih =>
    rw [toList_label_array, ih]
    rfl
  | case2 t hbase =>
    cases t with
    | array notes min max element => exact absurd rfl (hbase notes min max element)
    | _ => rfl

/-- No known tag is the label of an array: there is a blank in such a label. -/
theorem tag_ne_shapeText {tag : String} (htag : tag ∈ knownTags) (inner : String)
    (bounds : LengthBounds) (bs : List (LengthBounds)) :
    tag.toList ≠ shapeText inner (bounds :: bs) := by
  have hblank : ∀ tag ∈ knownTags, ' ' ∉ tag.toList := by decide
  intro h
  refine hblank tag htag ?_
  rw [h, shapeText]
  simp

/-- Bounds and tag can be read off, where the tag is a known one. -/
theorem shapeText_inj {s t : String} {as bs : List (LengthBounds)}
    (hs : s ∈ knownTags) (ht : t ∈ knownTags) (h : shapeText s as = shapeText t bs) :
    as = bs ∧ s = t := by
  induction as generalizing bs with
  | nil =>
    cases bs with
    | nil => exact ⟨rfl, String.toList_inj.1 h⟩
    | cons b bs => exact absurd h (tag_ne_shapeText hs t b bs)
  | cons a as ih =>
    cases bs with
    | nil => exact absurd h.symm (tag_ne_shapeText ht s a as)
    | cons b bs =>
      -- behind the first word, the bounds end at the blank before the next one
      obtain ⟨hbounds, hrest⟩ := append_cons_inj (blank_not_mem_boundsText a)
        (blank_not_mem_boundsText b) (List.append_cancel_left h)
      obtain ⟨rfl, rfl⟩ := ih (by simpa using hrest)
      exact ⟨by rw [boundsText_inj hbounds], rfl⟩

/-- The label of a type tells how many arrays its chain has, the bounds of each of them and the tag
    of the innermost type, and nothing else: two types, recognized along their chains, have one
    label just when they agree in all of these. -/
theorem label_eq_iff {s t : TypeDescription} (hs : ∀ u ∈ s.elementChain, u.IsRecognized)
    (ht : ∀ u ∈ t.elementChain, u.IsRecognized) :
    label s = label t ↔ s.arrayBounds = t.arrayBounds ∧ s.innermost.tag = t.innermost.tag := by
  constructor
  · intro h
    have htext := congrArg String.toList h
    rw [toList_label, toList_label] at htext
    exact shapeText_inj (tag_mem_knownTags (hs _ (innermost_mem_elementChain s)))
      (tag_mem_knownTags (ht _ (innermost_mem_elementChain t))) htext
  · rintro ⟨hbounds, htag⟩
    rw [← String.toList_inj, toList_label, toList_label, hbounds, htag]

/-- Rows of points, with a remark on the points and with their coordinates. -/
def pointRows : TypeDescription :=
  .array {} (some 4) none
    (.array {} none none (.object ⟨some "Length", []⟩ [("x", .primitive {} .real)]))

/-- Rows of objects of which nothing is known. -/
def objectRows : TypeDescription :=
  .array {} (some 4) none (.array {} none none (.bareObject {}))

theorem label_eq_iff_objectRows :
    label pointRows = "Array[4..*] of Array of Object" ∧ label objectRows = label pointRows
      ∧ objectRows.arrayBounds = [(some 4, none), (none, none)]
      ∧ objectRows.arrayBounds = pointRows.arrayBounds
      ∧ objectRows.innermost.tag = pointRows.innermost.tag := by
  have hpoints : ∀ u ∈ pointRows.elementChain, u.IsRecognized := by
    simp [pointRows, elementChain, IsRecognized]
  have hobjects : ∀ u ∈ objectRows.elementChain, u.IsRecognized := by
    simp [objectRows, elementChain, IsRecognized]
  have hlabel : label objectRows = label pointRows := by decide
  exact ⟨by decide, hlabel, rfl, (label_eq_iff hobjects hpoints).1 hlabel⟩

/-- A tag that is not known may look like the label of an array. -/
example : label (.unrecognized {} "Array of Real")
    = label (.array {} none none (.primitive {} .real)) := by
  decide

end TypeDescription

end BimEditor
