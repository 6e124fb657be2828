/-
  BimEditor.Proofs.Workspace.Capacity

  How many documents a store holds. One document makes room for a new one, so a store that holds no
  more than its limit never will; but a limit that is lowered below the number of documents is not
  made good by taking in others. What is held beyond the limit (`excess`) is left as it is by every
  operation that takes documents in, and only removals lower it (`excess_perform`).

  So right after a document was added the store is within its limit exactly if, since the limit was
  set, at least as many documents were removed as were held beyond it then
  (`length_put_le_iff_removedIn`).
-/
import BimEditor.Proofs.Workspace.Recency

namespace BimEditor

open BimEditor.Json

namespace Json.Keyed

variable {α : Type} {name : String} {entries : Keyed α}

theorem length_adjust (name : String) (change : α → α) (entries : Keyed α) :
    (entries.adjust name change).length = entries.length := by
  have hnames := congrArg List.length (names_adjust name change entries)
  simpa [names] using hnames

/-- With distinct names, there is one entry of a name that occurs. -/
theorem length_without (hdistinct : entries.names.Nodup) (hmem : name ∈ entries.names) :
    (entries.without name).length + 1 = entries.length := by
  rw [← has_iff_mem_names, has_eq_isSome, Option.isSome_iff_exists] at hmem
  obtain ⟨value, hvalue⟩ := hmem
  have hperm := (adjust_perm hdistinct hvalue id).length_eq
  rw [length_adjust, List.length_cons] at hperm
  exact hperm.symm

end Json.Keyed

namespace Store

variable {s : Store} {uri : Uri} {text : String}

/-! ## Making room -/

theorem uris_evict_sublist (s : Store) : s.evict.uris.Sublist s.uris := by
  rw [evict]
  split
  · exact List.filter_sublist.map _
  · exact List.Sublist.refl _

theorem maxDocuments_evict (s : Store) : s.evict.maxDocuments = s.maxDocuments := by
  rw [evict]
  split <;> rfl

/-- One document is dropped, if there is one. -/
theorem length_evict (hdistinct : s.uris.Nodup) :
    s.evict.documents.length = s.documents.length - 1 := by
  rw [evict]
  cases hdocuments : s.documents with
  | nil =>
    show s.documents.length = _
    rw [hdocuments]
    rfl
  | cons first rest =>
    obtain ⟨oldest, hmem, hsome, -⟩ := oldest?_cons first rest
    rw [uris, hdocuments] at hdistinct
    have hlength := Keyed.length_without hdistinct (List.mem_map_of_mem hmem)
    rw [hsome]
    show (Keyed.without oldest.1 (first :: rest)).length = _
    omega

/-- A new document comes behind those that are left when there is room for it. -/
theorem insert_cases (s : Store) (uri : Uri) (text : String) :
    ∃ d, (s.insert uri text).maxDocuments = s.maxDocuments
      ∧ (s.insert uri text).documents
        = (if s.maxDocuments ≤ s.documents.length then s.evict else s).documents ++ [(uri, d)] := by
  have hroomy : s.roomy.maxDocuments = s.maxDocuments ∧ s.roomy.documents
      = (if s.maxDocuments ≤ s.documents.length then s.evict else s).documents := by
    rw [roomy]
    split
    · refine ⟨maxDocuments_evict _, ?_⟩
      -- the count of misses does not matter to what is dropped
      rw [evict, evict]
      cases oldest? s.documents <;> rfl
    · exact ⟨rfl, rfl⟩
  refine ⟨s.roomy.admitted text, hroomy.1, ?_⟩
  rw [insert_eq, hroomy.2]

theorem length_insert (hdistinct : s.uris.Nodup) (uri : Uri) (text : String) :
    (s.insert uri text).documents.length
      = (if s.maxDocuments ≤ s.documents.length then s.documents.length - 1
          else s.documents.length) + 1 := by
  obtain ⟨d, -, hdocuments⟩ := s.insert_cases uri text
  rw [hdocuments, List.length_append]
  split
  · rw [length_evict hdistinct]
    rfl
  · rfl

/-! ## Each name stands once -/

theorem distinct_insert (hdistinct : s.uris.Nodup) (hnew : uri ∉ s.uris) :
    (s.insert uri text).uris.Nodup := by
  obtain ⟨d, -, hdocuments⟩ := s.insert_cases uri text
  have hsublist : (if s.maxDocuments ≤ s.documents.length then s.evict else s).uris.Sublist
      s.uris := by
    split
    · exact s.uris_evict_sublist
    · exact List.Sublist.refl _
  rw [uris, hdocuments, Keyed.names, List.map_append, List.map_singleton]
  refine List.nodup_append.mpr ⟨hdistinct.sublist hsublist, List.pairwise_singleton _ _, ?_⟩
  intro name hname other hother
  obtain rfl := List.mem_singleton.mp hother
  rintro rfl
  exact hnew (hsublist.subset hname)

theorem uris_touch (s : Store) (uri : Uri) : (s.touch uri).uris = s.uris :=
  Keyed.names_adjust _ _ _

theorem uris_get? (s : Store) (uri : Uri) : (s.get? uri).1.uris = s.uris := by
  rcases s.get?_cases uri with h | h
  · rw [h]
  · rw [h, uris_touch]

theorem maxDocuments_get? (s : Store) (uri : Uri) :
    (s.get? uri).1.maxDocuments = s.maxDocuments := by
  rcases s.get?_cases uri with h | h
  · rw [h]
  · rw [h, touch]

theorem uris_restyle (s : Store) (style : TooltipStyle) : (s.restyle style).1.uris = s.uris := by
  rw [restyle]
  split
  · rfl
  · rw [uris, Keyed.names, List.map_map]
    rfl

/-- Taking in a text leaves the names that are held, or brings in a new one. -/
theorem put_cases (s : Store) (uri : Uri) (text : String) :
    ((s.put uri text).1.uris = s.uris ∧ (s.put uri text).1.maxDocuments = s.maxDocuments)
      ∨ (uri ∉ s.uris ∧ (s.put uri text).1 = s.insert uri text) := by
  rw [put]
  split
  · exact .inl ⟨rfl, rfl⟩
  · by_cases hheld : Keyed.has uri s.documents = true
    · rw [if_pos hheld]
      refine .inl ⟨?_, rfl⟩
      rw [uris_touch]
      exact Keyed.names_adjust _ _ _
    · rw [if_neg hheld]
      exact .inr ⟨fun hmem => hheld (Keyed.has_iff_mem_names.mpr hmem), rfl⟩

theorem distinct_perform (hdistinct : s.uris.Nodup) (op : Operation) :
    (s.perform op).uris.Nodup := by
  cases op with
  | put uri text =>
    rcases s.put_cases uri text with ⟨huris, -⟩ | ⟨hnew, hinsert⟩
    · rw [perform, huris]
      exact hdistinct
    · rw [perform, hinsert]
      exact distinct_insert hdistinct hnew
  | get uri =>
    rw [perform, uris_get?]
    exact hdistinct
  | analysis uri =>
    show (s.get? uri).1.uris.Nodup
    rw [uris_get?]
    exact hdistinct
  | accept uri style text =>
    rw [perform, accept, uris, Keyed.names_adjust]
    exact hdistinct
  | markClean uri =>
    rw [perform, markClean, uris, Keyed.names_adjust]
    exact hdistinct
  | restyle style =>
    rw [perform, uris_restyle]
    exact hdistinct
  | limitDocuments limit => exact hdistinct
  | limitSize limit => exact hdistinct
  | remove uri => exact Keyed.nodup_names_without hdistinct
  | clear => exact List.nodup_nil

theorem distinct_performAll (hdistinct : s.uris.Nodup) (operations : List Operation) :
    (s.performAll operations).uris.Nodup := by
  induction operations generalizing s with
  | nil => exact hdistinct
  | cons op rest ih => exact ih (distinct_perform hdistinct op)

/-! ## What is held beyond the limit -/

/-- How many documents are held beyond the limit. One may always be held. -/
def excess (s : Store) : Nat :=
  s.documents.length - max 1 s.maxDocuments

/-- How many documents an operation drops other than to make room. -/
def removedBy (s : Store) : Operation → Nat
  | .remove uri => if uri ∈ s.uris then 1 else 0
  | .clear => s.documents.length
  | _ => 0

/-- How many documents operations drop other than to make room. -/
def removedIn (s : Store) : List Operation → Nat
  | [] => 0
  | op :: rest => s.removedBy op + (s.perform op).removedIn rest

theorem length_uris (s : Store) : s.uris.length = s.documents.length :=
  List.length_map _

theorem excess_of_uris {s' : Store} (huris : s'.uris = s.uris)
    (hmax : s'.maxDocuments = s.maxDocuments) : s'.excess = s.excess := by
  rw [excess, excess, ← length_uris, huris, length_uris, hmax]

/-- A new document takes the place of one that is dropped, or is one that the limit allows. -/
theorem excess_insert (hdistinct : s.uris.Nodup) (uri : Uri) (text : String) :
    (s.insert uri text).excess = s.excess := by
  obtain ⟨d, hmax, -⟩ := s.insert_cases uri text
  rw [excess, excess, length_insert hdistinct, hmax]
  split <;> omega

theorem excess_put (hdistinct : s.uris.Nodup) (uri : Uri) (text : String) :
    (s.put uri text).1.excess = s.excess := by
  rcases s.put_cases uri text with ⟨huris, hmax⟩ | ⟨-, hinsert⟩
  · exact excess_of_uris huris hmax
  · rw [hinsert, excess_insert hdistinct]

theorem excess_remove (hdistinct : s.uris.Nodup) (uri : Uri) :
    (s.remove uri).1.excess = s.excess - s.removedBy (.remove uri) := by
  rw [removedBy]
  split
  · next hmem =>
    have hlength := Keyed.length_without hdistinct hmem
    show (Keyed.without uri s.documents).length - max 1 s.maxDocuments = _
    rw [excess]
    omega
  · next hmem =>
    show (Keyed.without uri s.documents).length - max 1 s.maxDocuments = _
    rw [Keyed.without_of_not_mem hmem, excess]
    rfl

/-- As long as the limit stays, only removals change what is held beyond it. -/
theorem excess_perform (hdistinct : s.uris.Nodup) {op : Operation}
    (hlimit : ∀ limit, op ≠ .limitDocuments limit) :
    (s.perform op).excess = s.excess - s.removedBy op := by
  cases op with
  | put uri text => exact excess_put hdistinct uri text
  | get uri => exact excess_of_uris (s.uris_get? uri) (s.maxDocuments_get? uri)
  | analysis uri => exact excess_of_uris (s.uris_get? uri) (s.maxDocuments_get? uri)
  | accept uri style text => exact excess_of_uris (Keyed.names_adjust _ _ _) rfl
  | markClean uri => exact excess_of_uris (Keyed.names_adjust _ _ _) rfl
  | restyle style =>
    refine excess_of_uris (s.uris_restyle style) ?_
    rw [perform, restyle]
    split <;> rfl
  | limitDocuments limit => exact absurd rfl (hlimit limit)
  | limitSize limit => rfl
  | remove uri => exact excess_remove hdistinct uri
  | clear =>
    show 0 - _ = s.excess - s.documents.length
    rw [excess]
    omega

theorem excess_performAll (hdistinct : s.uris.Nodup) {operations : List Operation}
    (hlimit : ∀ limit, Operation.limitDocuments limit ∉ operations) :
    (s.performAll operations).excess = s.excess - s.removedIn operations := by
  induction operations generalizing s with
  | nil => rfl
  | cons op rest ih =>
    have hop : ∀ limit, op ≠ .limitDocuments limit := by
      rintro limit rfl
      exact hlimit limit List.mem_cons_self
    have hrest : ∀ limit, Operation.limitDocuments limit ∉ rest :=
      fun limit hmem => hlimit limit (List.mem_cons_of_mem op hmem)
    rw [performAll, List.foldl_cons]
    show ((s.perform op).performAll rest).excess = _
    rw [ih (distinct_perform hdistinct op) hrest, excess_perform hdistinct hop, removedIn]
    omega

/-! ## Runs -/

/-- The limit is never set in a run, or it is set for the last time somewhere. -/
theorem limitDocuments_cases (operations : List Operation) :
    (∀ limit, Operation.limitDocuments limit ∉ operations)
      ∨ ∃ before limit since, operations = before ++ .limitDocuments limit :: since
        ∧ ∀ later, Operation.limitDocuments later ∉ since := by
  induction operations with
  | nil => exact .inl fun limit hmem => by cases hmem
  | cons op rest ih =>
    rcases ih with hnever | ⟨before, limit, since, rfl, hlast⟩
    · by_cases hop : ∃ limit, op = .limitDocuments limit
      · obtain ⟨limit, rfl⟩ := hop
        exact .inr ⟨[], limit, rest, rfl, hnever⟩
      · refine .inl fun limit hmem => ?_
        rcases List.mem_cons.mp hmem with rfl | hrest
        · exact hop ⟨limit, rfl⟩
        · exact hnever limit hrest
    · exact .inr ⟨op :: before, limit, since, rfl, hlast⟩

/-- The store is beyond its limit by what was beyond it when it was set, less what was removed
    since. -/
theorem excess_since (hdistinct : s.uris.Nodup) (before : List Operation) (limit : Nat)
    {since : List Operation} (hlast : ∀ later, Operation.limitDocuments later ∉ since) :
    (s.performAll (before ++ .limitDocuments limit :: since)).excess
      = (s.performAll before).documents.length - max 1 limit
        - (s.performAll (before ++ [.limitDocuments limit])).removedIn since := by
  have hsplit : s.performAll (before ++ .limitDocuments limit :: since)
      = (s.performAll (before ++ [.limitDocuments limit])).performAll since := by
    simp [performAll]
  rw [hsplit, excess_performAll (distinct_performAll hdistinct _) hlast, performAll_concat]
  rfl

/-- Right after a text was taken in, no more documents are held than the limit allows (and one in
    any case), exactly if since the limit was last set at least as many documents were removed as
    were held beyond it at that time. In particular this is so in every run that never sets the
    limit. -/
theorem length_put_le_iff_removedIn (maxDocuments maxDocumentSize : Nat)
    (operations : List Operation) (uri : Uri) (text : String) :
    (((new maxDocuments maxDocumentSize).performAll operations).put uri text).1.documents.length
        ≤ max 1
          (((new maxDocuments maxDocumentSize).performAll operations).put uri text).1.maxDocuments
      ↔ ∀ before limit since, operations = before ++ .limitDocuments limit :: since →
          (∀ later, Operation.limitDocuments later ∉ since) →
          ((new maxDocuments maxDocumentSize).performAll before).documents.length
            ≤ max 1 limit + ((new maxDocuments maxDocumentSize).performAll
              (before ++ [.limitDocuments limit])).removedIn since := by
  have hempty : (new maxDocuments maxDocumentSize).uris.Nodup := List.nodup_nil
  have hnone : (new maxDocuments maxDocumentSize).excess = 0 := Nat.zero_sub _
  have hput := excess_put (distinct_performAll hempty operations) uri text
  rw [← Nat.sub_eq_zero_iff_le, ← excess, hput]
  constructor
  · rintro hwithin before limit since rfl hlast
    rw [excess_since hempty before limit hlast] at hwithin
    omega
  · intro hremoved
    rcases limitDocuments_cases operations with hnever | ⟨before, limit, since, rfl, hlast⟩
    · rw [excess_performAll hempty hnever, hnone, Nat.zero_sub]
    · have := hremoved before limit since rfl hlast
      rw [excess_since hempty before limit hlast]
      omega

/-! ## A limit that is lowered -/

/-- Two documents are held when the limit becomes one. -/
def lowered : List Operation :=
  [.put "file:///w/a.ifcx" "1", .put "file:///w/b.ifcx" "2", .limitDocuments 1]

/-- More documents can be held than the limit allows, right after one was added. -/
theorem not_forall_length_put_le :
    ¬ ∀ (maxDocuments maxDocumentSize : Nat) (operations : List Operation) (uri : Uri)
        (text : String),
        uri ∉ ((new maxDocuments maxDocumentSize).performAll operations).uris →
        uri ∈ (((new maxDocuments maxDocumentSize).performAll operations).put uri text).1.uris →
        (((new maxDocuments maxDocumentSize).performAll operations).put uri text).1.documents.length
          ≤ max 1 (((new maxDocuments maxDocumentSize).performAll
              operations).put uri text).1.maxDocuments := by
  intro h
  have hle := h 2 1 lowered "file:///w/c.ifcx" "3" (by decide +kernel) (by decide +kernel)
  have htwo :
      (((new 2 1).performAll lowered).put "file:///w/c.ifcx" "3").1.documents.length = 2 := by
    decide +kernel
  have hone : (((new 2 1).performAll lowered).put "file:///w/c.ifcx" "3").1.maxDocuments = 1 := by
    decide +kernel
  rw [htwo, hone] at hle
  omega

end Store

end BimEditor
