/-
  BimEditor.Proofs.Workspace.Accounting

  The books of a store. A document that was not held when its text came is counted as a miss, and
  from then on it is held until it is dropped to make room, which is counted too, or removed. What
  was removed is not counted by the store, but it was told to whoever asked for it. So the counts of
  a store can be checked against the answers that it gave (`Answers`).

  One operation keeps the books in balance (`Balanced.perform`), and so does a run, whatever limits
  it sets (`misses_eq_and_hits_add_misses_eq`). No count is larger than the number of operations
  (`counts_le_length`), so counters of 64 bits count the same in any run of fewer than 2 ^ 64.
-/
import BimEditor.Proofs.Workspace.Capacity

namespace BimEditor

open BimEditor.Json

/-- How often a store has answered yes since it was made or cleared. -/
structure Answers where
  /-- Texts that were taken in. -/
  taken : Nat := 0
  /-- Documents that were held when they were to be removed. -/
  removed : Nat := 0
deriving DecidableEq, Repr, Inhabited

namespace Store

/-- The answers including that to one more operation, which is done to the store `s`. When the store
    is cleared, counting starts again. -/
def noted (s : Store) (a : Answers) : Operation → Answers
  | .put uri text => if (s.put uri text).2 then { a with taken := a.taken + 1 } else a
  | .remove uri => if (s.remove uri).2 then { a with removed := a.removed + 1 } else a
  | .clear => {}
  | _ => a

/-- The answers including those to operations, done to the store `s` one after the other. -/
def answers (s : Store) (a : Answers) : List Operation → Answers
  | [] => a
  | op :: rest => (s.perform op).answers (s.noted a op) rest

/-- Each miss is a document that is held, was dropped to make room or was removed; and each text
    that was taken in was a hit or a miss. -/
structure Balanced (s : Store) (a : Answers) : Prop where
  distinct : s.uris.Nodup
  misses_eq : s.misses = s.documents.length + s.evictions + a.removed
  taken_eq : s.hits + s.misses = a.taken

variable {s s' : Store} {a : Answers} {uri : Uri}

theorem balanced_new (maxDocuments maxDocumentSize : Nat) :
    Balanced (new maxDocuments maxDocumentSize) {} :=
  ⟨List.nodup_nil, rfl, rfl⟩

/-! ## One operation -/

/-- The books say nothing of what a document is or when it was used. -/
theorem Balanced.frame (h : Balanced s a) (huris : s'.uris = s.uris) (hhits : s'.hits = s.hits)
    (hmisses : s'.misses = s.misses) (hevictions : s'.evictions = s.evictions) :
    Balanced s' a := by
  have hlength : s'.documents.length = s.documents.length := by
    rw [← length_uris, huris, length_uris]
  refine ⟨huris ▸ h.distinct, ?_, ?_⟩
  · rw [hmisses, hlength, hevictions]
    exact h.misses_eq
  · rw [hhits, hmisses]
    exact h.taken_eq

theorem Balanced.get (h : Balanced s a) (uri : Uri) : Balanced (s.get? uri).1 a := by
  rcases s.get?_cases uri with hsame | htouch
  · rw [hsame]
    exact h
  · rw [htouch]
    exact h.frame (s.uris_touch uri) rfl rfl rfl

theorem Balanced.restyle (h : Balanced s a) (style : TooltipStyle) :
    Balanced (s.restyle style).1 a := by
  by_cases hstyle : s.style = style
  · rw [Store.restyle, if_pos hstyle]
    exact h
  · have huris := s.uris_restyle style
    rw [Store.restyle, if_neg hstyle] at huris ⊢
    exact h.frame huris rfl rfl rfl

/-- What is dropped to make room is counted; if there is nothing to drop, nothing is. -/
theorem length_add_evictions_evict (hdistinct : s.uris.Nodup) :
    s.evict.documents.length + s.evict.evictions = s.documents.length + s.evictions := by
  rw [length_evict hdistinct, evict]
  cases hdocuments : s.documents with
  | nil => rfl
  | cons first rest =>
    obtain ⟨oldest, -, hsome, -⟩ := oldest?_cons first rest
    rw [hsome, List.length_cons]
    dsimp only
    omega

theorem hits_evict (s : Store) : s.evict.hits = s.hits := by
  rw [evict]
  split <;> rfl

theorem misses_evict (s : Store) : s.evict.misses = s.misses := by
  rw [evict]
  split <;> rfl

/-- Making room counts a miss, and of the documents none is lost uncounted. -/
theorem counts_roomy (hdistinct : s.uris.Nodup) :
    s.roomy.hits = s.hits ∧ s.roomy.misses = s.misses + 1
      ∧ s.roomy.documents.length + s.roomy.evictions = s.documents.length + s.evictions := by
  rw [roomy]
  split
  · exact ⟨hits_evict _, misses_evict _, length_add_evictions_evict hdistinct⟩
  · exact ⟨rfl, rfl, rfl⟩

/-- A new document is a miss, and held. -/
theorem Balanced.insert (h : Balanced s a) (hnew : uri ∉ s.uris) (text : String) :
    Balanced (s.insert uri text) { a with taken := a.taken + 1 } := by
  obtain ⟨hhits, hmisses, hlength⟩ := counts_roomy h.distinct
  have hbefore := h.misses_eq
  have htaken := h.taken_eq
  refine ⟨distinct_insert h.distinct hnew, ?_, ?_⟩
  · rw [insert_eq]
    dsimp only
    rw [List.length_append, List.length_singleton]
    omega
  · rw [insert_eq]
    dsimp only
    omega

/-- A document that is held already is a hit, and a text that is too large is neither hit nor
    miss. -/
theorem Balanced.put (h : Balanced s a) (uri : Uri) (text : String) :
    Balanced (s.put uri text).1 (s.noted a (.put uri text)) := by
  rw [noted, Store.put]
  split
  · exact h
  · by_cases hheld : Keyed.has uri s.documents = true
    · rw [if_pos hheld, if_pos rfl]
      have hbefore := h.misses_eq
      have htaken := h.taken_eq
      refine ⟨?_, ?_, ?_⟩
      · rw [uris_touch, uris, Keyed.names_adjust]
        exact h.distinct
      · -- the edit and the use change one document in its place
        show s.misses = (Keyed.adjust uri _ (Keyed.adjust uri _ s.documents)).length + s.evictions
          + a.removed
        rw [Keyed.length_adjust, Keyed.length_adjust]
        exact hbefore
      · show s.hits + 1 + s.misses = a.taken + 1
        omega
    · rw [if_neg hheld, if_pos rfl]
      exact h.insert (fun hmem => hheld (Keyed.has_iff_mem_names.mpr hmem)) text

/-- A document that is removed was held, and is no more. -/
theorem Balanced.remove (h : Balanced s a) (uri : Uri) :
    Balanced (s.remove uri).1 (s.noted a (.remove uri)) := by
  have hdistinct : (s.remove uri).1.uris.Nodup := Keyed.nodup_names_without h.distinct
  have hbefore := h.misses_eq
  rw [noted]
  by_cases hheld : (s.remove uri).2 = true
  · have hlength : (s.remove uri).1.documents.length + 1 = s.documents.length :=
      Keyed.length_without h.distinct (Keyed.has_iff_mem_names.mp hheld)
    rw [if_pos hheld]
    refine ⟨hdistinct, ?_, h.taken_eq⟩
    show s.misses = (s.remove uri).1.documents.length + s.evictions + (a.removed + 1)
    omega
  · have hsame : (s.remove uri).1.documents = s.documents :=
      Keyed.without_of_not_mem fun hmem => hheld (Keyed.has_iff_mem_names.mpr hmem)
    rw [if_neg hheld]
    refine ⟨hdistinct, ?_, h.taken_eq⟩
    rw [hsame]
    exact hbefore

theorem Balanced.perform (h : Balanced s a) (op : Operation) :
    Balanced (s.perform op) (s.noted a op) := by
  cases op with
  | put uri text => exact h.put uri text
  | get uri => exact h.get uri
  | analysis uri => exact h.get uri
  | accept uri style text => exact h.frame (Keyed.names_adjust _ _ _) rfl rfl rfl
  | markClean uri => exact h.frame (Keyed.names_adjust _ _ _) rfl rfl rfl
  | restyle style => exact h.restyle style
  | limitDocuments limit => exact h.frame rfl rfl rfl rfl
  | limitSize limit => exact h.frame rfl rfl rfl rfl
  | remove uri => exact h.remove uri
  | clear => exact ⟨List.nodup_nil, rfl, rfl⟩

/-! ## Runs -/

theorem Balanced.performAll (h : Balanced s a) (operations : List Operation) :
    Balanced (s.performAll operations) (s.answers a operations) := by
  induction operations generalizing s a with
  | nil => exact h
  | cons op rest ih => exact ih (h.perform op)

/-- In every run, with any limits, the misses are the documents that are held, those that were
    dropped to make room and those that were removed, and hits and misses together are the texts
    that were taken in, all since the store was made or cleared. -/
theorem misses_eq_and_hits_add_misses_eq (maxDocuments maxDocumentSize : Nat)
    (operations : List Operation) :
    ((new maxDocuments maxDocumentSize).performAll operations).misses
        = ((new maxDocuments maxDocumentSize).performAll operations).documents.length
          + ((new maxDocuments maxDocumentSize).performAll operations).evictions
          + ((new maxDocuments maxDocumentSize).answers {} operations).removed
      ∧ ((new maxDocuments maxDocumentSize).performAll operations).hits
          + ((new maxDocuments maxDocumentSize).performAll operations).misses
        = ((new maxDocuments maxDocumentSize).answers {} operations).taken := by
  have hbalanced := (balanced_new maxDocuments maxDocumentSize).performAll operations
  exact ⟨hbalanced.misses_eq, hbalanced.taken_eq⟩

/-- One document is edited, then dropped for another one, and that one is removed. -/
def busy : List Operation :=
  [.put "file:///w/a.ifcx" "1", .put "file:///w/a.ifcx" "2", .put "file:///w/b.ifcx" "3",
    .remove "file:///w/b.ifcx"]

example : ((new 1 1).performAll busy).hits = 1 ∧ ((new 1 1).performAll busy).misses = 2
    ∧ ((new 1 1).performAll busy).evictions = 1 ∧ ((new 1 1).performAll busy).documents.length = 0
    ∧ (new 1 1).answers {} busy = ⟨3, 1⟩ := by decide +kernel

/-! ## Bounds -/

theorem taken_noted_le (s : Store) (a : Answers) (op : Operation) :
    (s.noted a op).taken ≤ a.taken + 1 := by
  cases op with
  | put uri text =>
    rw [noted]
    split
    · exact Nat.le_refl _
    · exact Nat.le_succ _
  | remove uri =>
    rw [noted]
    split <;> exact Nat.le_succ _
  | clear => exact Nat.zero_le _
  | _ => exact Nat.le_succ _

theorem taken_answers_le (s : Store) (a : Answers) (operations : List Operation) :
    (s.answers a operations).taken ≤ a.taken + operations.length := by
  induction operations generalizing s a with
  | nil => exact Nat.le_refl _
  | cons op rest ih =>
    have hrest := ih (s.perform op) (s.noted a op)
    have hop := taken_noted_le s a op
    rw [answers, List.length_cons]
    omega

/-- No count of a run is larger than the number of its operations. -/
theorem counts_le_length (maxDocuments maxDocumentSize : Nat) (operations : List Operation) :
    ((new maxDocuments maxDocumentSize).performAll operations).hits ≤ operations.length
      ∧ ((new maxDocuments maxDocumentSize).performAll operations).misses ≤ operations.length
      ∧ ((new maxDocuments maxDocumentSize).performAll operations).evictions
        ≤ operations.length := by
  have hbalanced := (balanced_new maxDocuments maxDocumentSize).performAll operations
  have htaken := taken_answers_le (new maxDocuments maxDocumentSize) {} operations
  have hmisses := hbalanced.misses_eq
  have hhits := hbalanced.taken_eq
  rw [show ({} : Answers).taken = 0 from rfl] at htaken
  exact ⟨by omega, by omega, by omega⟩

end Store

end BimEditor
