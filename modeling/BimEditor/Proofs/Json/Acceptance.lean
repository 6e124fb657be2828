/-
  BimEditor.Proofs.Json.Acceptance

  Which texts are read, and as what. Under given limits a tree is read exactly if the text is small
  enough and holds the tree (`read_eq_ok_iff`). Without limits the plain values that are read are
  those that the grammar derives, and every other text is refused as malformed
  (`read_unlimited_iff_derives`).
-/
import BimEditor.Document.Problem
import BimEditor.Proofs.Json.Reading

namespace BimEditor.Json

open BimEditor.Text

variable {rules : Rules} {limits : Limits} {text : List Char} {t : Tree}

/-! ## Under limits -/

/-- The rules for documents give a numeral the number that it denotes. -/
theorem byRule_number? : ByRule Numeral.number? = Denotes := by
  funext n x
  exact propext denotes_iff.symm

theorem checkSize_eq_ok (h : WithinLimit limits.maxSize (byteLength text)) :
    checkSize limits.maxSize text = .ok () := by
  rw [checkSize, exceeded?_eq_none_iff.2 h]

theorem checkSize_ensures (limits : Limits) (text : List Char) :
    Ensures (fun _ => WithinLimit limits.maxSize (byteLength text))
      (fun _ => ¬ WithinLimit limits.maxSize (byteLength text))
      (checkSize limits.maxSize text) := by
  unfold checkSize
  split
  · next limit h =>
    refine .error ?_
    intro hwithin
    rw [exceeded?_eq_none_iff.2 hwithin] at h
    cases h
  · next h => exact .ok (exceeded?_eq_none_iff.1 h)

/-- A text within the limit on the size is read by the rules. -/
theorem read_eq_readBy (h : WithinLimit limits.maxSize (byteLength text)) :
    read limits text = readBy limits.rules text := by
  rw [read, checkSize_eq_ok h, ok_bind]

/-- A tree is read if and only if the text is small enough and holds the tree. -/
theorem read_eq_ok_iff :
    read limits text = .ok t
      ↔ WithinLimit limits.maxSize (byteLength text) ∧ HoldsTree limits.rules text t := by
  constructor
  · intro h
    -- a text that is too large is refused before anything is read
    have hsize : WithinLimit limits.maxSize (byteLength text) := by
      have hcheck := checkSize_ensures limits text
      rw [read] at h
      cases hsize : checkSize limits.maxSize text with
      | ok a =>
        rw [hsize] at hcheck
        exact hcheck.of_ok
      | error e =>
        rw [hsize] at h
        cases h
    rw [read_eq_readBy hsize] at h
    exact ⟨hsize, readBy_eq_ok_iff.1 h⟩
  · rintro ⟨hsize, hholds⟩
    rw [read_eq_readBy hsize]
    exact readBy_eq_ok_iff.2 hholds

/-- A text with a fault at one place is small enough: one that is too large is refused as a
    whole. -/
theorem withinLimit_of_place {e : Fault} {offset : Nat} (h : read limits text = .error e)
    (hplace : e.offset? = some offset) : WithinLimit limits.maxSize (byteLength text) := by
  refine exceeded?_eq_none_iff.1 (Option.eq_none_iff_forall_ne_some.2 fun limit hlimit => ?_)
  rw [read, checkSize, hlimit] at h
  cases h
  cases hplace

/-! ## With and without places -/

theorem HoldsTree.derivesText (h : HoldsTree rules text t) :
    DerivesText (ByRule rules.number?) text t.plain := by
  obtain ⟨b₁, s, b₂, htext, hb₁, hb₂, hloc, -⟩ := h
  exact ⟨b₁, s, b₂, htext, hb₁, hloc.derives, hb₂⟩

theorem DerivesText.holdsTree {v : Value} (h : DerivesText (ByRule rules.number?) text v)
    (hdepth : WithinLimit rules.maxDepth v.depth) : ∃ t, HoldsTree rules text t ∧ t.plain = v := by
  obtain ⟨b₁, s, b₂, htext, hb₁, hderives, hb₂⟩ := h
  obtain ⟨p, hloc, hplain⟩ := hderives.located (byteLength b₁)
  obtain ⟨t, rfl, rfl⟩ := Phrase.of_plain_value hplain
  rw [Tree.depth_plain] at hdepth
  exact ⟨t, ⟨b₁, s, b₂, htext, hb₁, hb₂, hloc, hdepth⟩, rfl⟩

/-- A derived value within the limits is read. -/
theorem read_of_derivesText {v : Value} (h : DerivesText Denotes text v)
    (hsize : WithinLimit limits.maxSize (byteLength text))
    (hdepth : WithinLimit limits.maxDepth v.depth) :
    ∃ t, read limits text = .ok t ∧ t.plain = v := by
  rw [← byRule_number?] at h
  obtain ⟨t, hholds, hplain⟩ := @DerivesText.holdsTree limits.rules text v h hdepth
  exact ⟨t, read_eq_ok_iff.2 ⟨hsize, hholds⟩, hplain⟩

/-! ## Without limits -/

theorem withinLimit_none (n : Nat) : WithinLimit none n := by
  intro most hmost
  cases hmost

/-- Without limits a text is read as a value, its spans forgotten, if and only if the grammar
    derives that value from the text; and a text from which it derives none is refused as
    malformed. -/
theorem read_unlimited_iff_derives (text : List Char) :
    (∀ v, (∃ t, read .unlimited text = .ok t ∧ t.plain = v) ↔ DerivesText Denotes text v)
      ∧ ((∃ v, DerivesText Denotes text v)
        ∨ ∃ fault, read .unlimited text = .error fault
          ∧ (Problem.unreadable fault).kind = .malformed) := by
  have haccept : ∀ v, (∃ t, read .unlimited text = .ok t ∧ t.plain = v)
      ↔ DerivesText Denotes text v := by
    intro v
    constructor
    · rintro ⟨t, hread, rfl⟩
      have hderives := (read_eq_ok_iff.1 hread).2.derivesText
      rwa [Limits.rules, byRule_number?] at hderives
    · intro hderives
      exact read_of_derivesText hderives (withinLimit_none _) (withinLimit_none _)
  refine ⟨haccept, ?_⟩
  have hensures := readBy_ensures Limits.unlimited.rules text
  rw [← read_eq_readBy (withinLimit_none _)] at hensures
  cases hread : read .unlimited text with
  | ok t => exact .inl ⟨t.plain, (haccept _).1 ⟨t, hread, rfl⟩⟩
  | error fault =>
    rw [hread] at hensures
    refine .inr ⟨fault, rfl, ?_⟩
    -- a fault of the depth would need a limit on it
    cases fault with
    | malformed offset cause => rfl
    | tooLarge size limit => exact hensures.of_error.elim
    | tooDeep offset limit => cases hensures.of_error

end BimEditor.Json
