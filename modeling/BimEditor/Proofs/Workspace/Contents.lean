/-
  BimEditor.Proofs.Workspace.Contents

  What a store holds under a name, apart from when it was last used (`content?`), and what each
  operation does to it. Uses are forgotten because they decide only which document is dropped next:
  every operation that counts as a use and does nothing else leaves all contents as they are.

  Taking in a text is the one operation with several outcomes. `Taken` lists them, and `taken_put`
  says that there are no others.
-/
import BimEditor.Proofs.Analysis.OfText
import BimEditor.Proofs.Json.KeyedLists
import BimEditor.Workspace.Store

namespace BimEditor

open BimEditor.Json

theorem Store.get?_without (uri other : Uri) (documents : Keyed HeldDocument) :
    Keyed.get? other (Store.without uri documents)
      = if uri = other then none else Keyed.get? other documents := by
  induction documents with
  | nil => simp [without, Keyed.get?]
  | cons entry rest ih =>
    rw [without] at ih
    -- the entry is dropped, is the one that is found, or is neither
    by_cases hname : entry.1 = uri
    · by_cases hother : uri = other
      · simp [without, Keyed.get?, hname, hother]
      · simpa [without, Keyed.get?, hname, hother] using ih
    · by_cases hother : entry.1 = other
      · have hne : ¬ uri = other := fun h => hname (hother.trans h.symm)
        simp [without, Keyed.get?, hother, hne, Ne.symm hne]
      · simpa [without, Keyed.get?, hname, hother] using ih

/-! ## Contents -/

/-- The document apart from when it was last used. -/
def HeldDocument.undated (d : HeldDocument) : HeldDocument :=
  { d with lastUse := 0 }

/-- The analysis of a clean document is that of its text, in the given style. -/
def HeldDocument.Current (style : TooltipStyle) (d : HeldDocument) : Prop :=
  d.dirty = false ∧ d.analysis = .ofText style d.text

namespace Store

/-- What is held under a name, apart from when it was last used. -/
def content? (s : Store) (uri : Uri) : Option HeldDocument :=
  (s.peek? uri).map HeldDocument.undated

theorem content?_eq_none {s : Store} {uri : Uri} : s.content? uri = none ↔ s.peek? uri = none := by
  simp [content?]

theorem isDirty_eq (s : Store) (uri : Uri) : s.isDirty uri = (s.content? uri).any (·.dirty) := by
  rw [isDirty, content?]
  cases s.peek? uri <;> rfl

theorem analyse?_eq (s : Store) (uri : Uri) :
    s.analyse? uri = (s.content? uri).map fun d => .ofText s.style d.text := by
  rw [analyse?, content?]
  cases s.peek? uri <;> rfl

theorem mem_uris {s : Store} {uri : Uri} : uri ∈ s.uris ↔ (s.content? uri).isSome := by
  rw [uris, ← Keyed.has_iff_mem_names, Keyed.has_eq_isSome, content?, Option.isSome_map, peek?]

@[simp]
theorem content?_touch (s : Store) (uri other : Uri) :
    (s.touch uri).content? other = s.content? other := by
  rw [content?, peek?, touch, Keyed.get?_adjust, content?, peek?]
  -- the time of the last use is what `content?` leaves out
  split
  · rw [Option.map_map]
    rfl
  · rfl

/-- Asking for a document is at most a use of it. -/
theorem get?_cases (s : Store) (uri : Uri) :
    (s.get? uri).1 = s ∨ (s.get? uri).1 = s.touch uri := by
  rw [get?]
  cases s.peek? uri with
  | none => exact .inl rfl
  | some d => exact .inr rfl

theorem content?_remove (s : Store) (uri other : Uri) :
    (s.remove uri).1.content? other = if uri = other then none else s.content? other := by
  rw [content?, peek?, remove, get?_without, content?, peek?]
  split <;> rfl

theorem content?_evict (s : Store) (other : Uri) :
    s.evict.content? other = none ∨ s.evict.content? other = s.content? other := by
  rw [evict]
  cases oldest? s.documents with
  | none => exact .inr rfl
  | some oldest =>
    rw [content?, peek?, get?_without, content?, peek?]
    split
    · exact .inl rfl
    · exact .inr rfl

theorem style_evict (s : Store) : s.evict.style = s.style := by
  rw [evict]
  split <;> rfl

theorem analysed_undated (d : HeldDocument) (a : Analysis) :
    (analysed d a).undated = analysed d.undated a := by
  by_cases h : d.text = a.text <;> simp [analysed, HeldDocument.undated, h]

theorem content?_accept (s : Store) (uri other : Uri) (a : Analysis) :
    (s.accept uri a).content? other
      = if uri = other then (s.content? other).map (analysed · a) else s.content? other := by
  rw [content?, peek?, accept, Keyed.get?_adjust, content?, peek?]
  split
  · simp only [Option.map_map, Function.comp_def, analysed_undated]
  · rfl

theorem edited_undated (d : HeldDocument) (text : String) :
    (edited d text).undated = edited d.undated text := by
  by_cases h : d.print = fingerprint text <;> simp [edited, HeldDocument.undated, h]

/-- Where another style is set, all documents become dirty. -/
theorem restyle_cases (s : Store) (style : TooltipStyle) :
    (s.style = style ∧ s.restyle style = (s, false))
      ∨ ∃ s', s.restyle style = (s', true)
          ∧ ∀ uri, s'.content? uri = (s.content? uri).map fun d => { d with dirty := true } := by
  rw [restyle]
  split
  · exact .inl ⟨‹_›, rfl⟩
  · refine .inr ⟨_, rfl, fun uri => ?_⟩
    simp only [content?, peek?]
    rw [Keyed.get?_map_values (fun d : HeldDocument => ({ d with dirty := true } : HeldDocument)),
      Option.map_map, Option.map_map]
    rfl

/-! ## Taking in a text -/

/-- What taking in a text can make of a store. A document that was held before is edited; one that
    was not is analysed, and another one may be dropped for it. -/
inductive Taken (s : Store) (uri : Uri) (text : String) : Store × Bool → Prop
  | refused : Taken s uri text (s, false)
  | edited {s' : Store} {d : HeldDocument} (before : s.content? uri = some d)
      (after : s'.content? uri = some (edited d text))
      (others : ∀ other, other ≠ uri → s'.content? other = s.content? other)
      (style : s'.style = s.style) : Taken s uri text (s', true)
  | admitted {s' : Store} (before : s.content? uri = none)
      (after : s'.content? uri = some (s.admitted text).undated)
      (others : ∀ other, other ≠ uri → s'.content? other = none
        ∨ s'.content? other = s.content? other)
      (style : s'.style = s.style) : Taken s uri text (s', true)

/-- A document that just came in is clean, and its analysis is that of its text. -/
theorem current_admitted (s : Store) (text : String) :
    HeldDocument.Current s.style (s.admitted text).undated :=
  ⟨rfl, rfl⟩

theorem content?_concat (s : Store) (uri other : Uri) (d : HeldDocument) (clock : Nat) :
    ({ s with documents := s.documents ++ [(uri, d)], clock := clock } : Store).content? other
      = (s.content? other).or (if uri = other then some d.undated else none) := by
  rw [content?, peek?, Keyed.get?_concat, Option.map_or, content?, peek?]
  split <;> rfl

/-- The store that a new document comes into: it has counted a miss and, if it was full, has dropped
    a document. -/
def roomy (s : Store) : Store :=
  if s.maxDocuments ≤ s.documents.length then ({ s with misses := s.misses + 1 } : Store).evict
  else { s with misses := s.misses + 1 }

/-- A new document comes behind those that are left. -/
theorem insert_eq (s : Store) (uri : Uri) (text : String) :
    s.insert uri text
      = { s.roomy with
          documents := s.roomy.documents ++ [(uri, s.roomy.admitted text)]
          clock := s.roomy.clock + 1 } := rfl

theorem style_roomy (s : Store) : s.roomy.style = s.style := by
  rw [roomy]
  split
  · exact style_evict _
  · rfl

theorem content?_roomy (s : Store) (uri : Uri) :
    s.roomy.content? uri = none ∨ s.roomy.content? uri = s.content? uri := by
  rw [roomy]
  split
  · exact content?_evict _ uri
  · exact .inr rfl

theorem taken_insert {s : Store} {uri : Uri} (text : String) (h : s.content? uri = none) :
    Taken s uri text (s.insert uri text, true) := by
  rw [insert_eq]
  refine .admitted h ?_ (fun other hne => ?_) s.style_roomy
  · -- making room does not bring the document in
    have hnone : s.roomy.content? uri = none := by
      rcases s.content?_roomy uri with hr | hr
      · exact hr
      · exact hr.trans h
    rw [content?_concat, hnone]
    simp [Store.admitted, HeldDocument.undated, s.style_roomy]
  · rw [content?_concat, if_neg (Ne.symm hne), Option.or_none]
    exact s.content?_roomy other

/-- Taking in a text does nothing else. -/
theorem taken_put (s : Store) (uri : Uri) (text : String) : Taken s uri text (s.put uri text) := by
  rw [put]
  split
  · exact .refused
  · by_cases hheld : Keyed.has uri s.documents = true
    · rw [if_pos hheld]
      rw [Keyed.has_eq_isSome, Option.isSome_iff_exists] at hheld
      obtain ⟨d, hd⟩ := hheld
      have hadjust : ∀ other, ({ s with
            documents := Keyed.adjust uri (fun d => Store.edited d text) s.documents
            hits := s.hits + 1 } : Store).content? other
          = if uri = other then (s.content? other).map (Store.edited · text)
            else s.content? other := by
        intro other
        rw [content?, peek?, Keyed.get?_adjust, content?, peek?]
        split
        · simp only [Option.map_map, Function.comp_def, edited_undated]
        · rfl
      have hbefore : s.content? uri = some d.undated := by
        rw [content?, peek?, hd, Option.map_some]
      refine .edited hbefore ?_ (fun other hne => ?_) rfl
      · rw [content?_touch, hadjust, if_pos rfl, hbefore, Option.map_some]
      · rw [content?_touch, hadjust, if_neg (Ne.symm hne)]
    · rw [if_neg hheld]
      refine taken_insert text ?_
      rw [Keyed.has_eq_isSome, Bool.not_eq_true, Option.isSome_eq_false_iff,
        Option.isNone_iff_eq_none] at hheld
      rw [content?_eq_none]
      exact hheld

/-- Taking in a text can drop another document and does nothing else to it. -/
theorem content?_put_of_ne {uri other : Uri} (s : Store) (text : String) (h : uri ≠ other) :
    (s.put other text).1.content? uri = none
      ∨ (s.put other text).1.content? uri = s.content? uri := by
  have htaken := s.taken_put other text
  generalize s.put other text = r at htaken ⊢
  cases htaken with
  | refused => exact .inr rfl
  | edited before after others style => exact .inr (others uri h)
  | admitted before after others style => exact others uri h

theorem style_put (s : Store) (uri : Uri) (text : String) : (s.put uri text).1.style = s.style := by
  have htaken := s.taken_put uri text
  generalize s.put uri text = r at htaken ⊢
  cases htaken with
  | refused => rfl
  | edited before after others style => exact style
  | admitted before after others style => exact style

end Store

end BimEditor
