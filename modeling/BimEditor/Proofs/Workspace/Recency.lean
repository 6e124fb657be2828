/-
  BimEditor.Proofs.Workspace.Recency

  Which documents a store holds, without a clock: a list of names with their texts, the one that was
  used last in front (`Recency`). A new document goes to the front, after the last entry has made
  room for it; a document that is used moves to the front.

  A store keeps its documents in no such order and tells the oldest by the times of their last uses.
  That its documents can be ranked by these times (`Ranking`) is kept by every operation, and the
  ranking is what the list shows (`Recency.Ranks`). So the store holds the same names with the same
  texts after every run in which no two texts share a fingerprint (`uris_perm_and_text_eq`).
-/
import Mathlib.Data.Set.Function
import Mathlib.Data.List.Induction
import BimEditor.Proofs.Workspace.Operations

namespace BimEditor

open BimEditor.Json

/-! ## The list of recent documents -/

/-- The documents that are held, with their texts, by their last uses: the latest in front. -/
structure Recency where
  entries : Keyed String := []
  maxDocuments : Nat
  maxDocumentSize : Nat

namespace Recency

/-- A list without documents. -/
def new (maxDocuments maxDocumentSize : Nat) : Recency :=
  { maxDocuments := maxDocuments, maxDocumentSize := maxDocumentSize }

/-- The names of the documents. -/
def uris (r : Recency) : List Uri :=
  r.entries.names

/-- The text of a document. -/
def text? (r : Recency) (uri : Uri) : Option String :=
  r.entries.get? uri

/-- Drop a document, if it is there. -/
def remove (r : Recency) (uri : Uri) : Recency :=
  { r with entries := r.entries.without uri }

/-- Drop the last document, if there is one. -/
def dropLast (r : Recency) : Recency :=
  { r with entries := r.entries.dropLast }

/-- Put a new document in front. -/
def push (r : Recency) (uri : Uri) (text : String) : Recency :=
  { r with entries := (uri, text) :: r.entries }

/-- Move a document to the front, with that text. -/
def toFront (r : Recency) (uri : Uri) (text : String) : Recency :=
  (r.remove uri).push uri text

/-- Take in a text. One that is too large changes nothing, and a new document takes the place of the
    last one where there are enough of them. -/
def put (r : Recency) (uri : Uri) (text : String) : Recency :=
  if r.maxDocumentSize < text.utf8ByteSize then r
  else if uri ∈ r.uris then r.toFront uri text
  else if r.maxDocuments ≤ r.entries.length then r.dropLast.push uri text
  else r.push uri text

/-- Use a document, if it is there. -/
def use (r : Recency) (uri : Uri) : Recency :=
  match r.text? uri with
  | some text => r.toFront uri text
  | none => r

/-- The list after an operation. Analyses and styles do not matter to it. -/
def perform (r : Recency) : Operation → Recency
  | .put uri text => r.put uri text
  | .get uri => r.use uri
  | .analysis uri => r.use uri
  | .accept _ _ _ => r
  | .markClean _ => r
  | .restyle _ => r
  | .limitDocuments limit => { r with maxDocuments := limit }
  | .limitSize limit => { r with maxDocumentSize := limit }
  | .remove uri => r.remove uri
  | .clear => { r with entries := [] }

/-- The list after operations, one after the other. -/
def performAll (r : Recency) (operations : List Operation) : Recency :=
  operations.foldl perform r

theorem performAll_concat (r : Recency) (operations : List Operation) (op : Operation) :
    r.performAll (operations ++ [op]) = (r.performAll operations).perform op := by
  rw [performAll, List.foldl_append]
  rfl

end Recency

/-! ## Ranking by last uses -/

namespace Store

/-- The documents of the store, each once, ranked by their last uses: the latest in front. -/
structure Ranking (s : Store) (ranked : Keyed HeldDocument) : Prop where
  perm : ranked.Perm s.documents
  latest : ranked.Pairwise fun a b => b.2.lastUse < a.2.lastUse
  past : ∀ entry ∈ ranked, entry.2.lastUse < s.clock
  distinct : ranked.names.Nodup

variable {s s' : Store} {ranked : Keyed HeldDocument} {uri : Uri} {d : HeldDocument}

/-- What leaves documents their names and their last uses leaves the ranking. -/
theorem Ranking.map (h : Ranking s ranked) {f : Uri × HeldDocument → Uri × HeldDocument}
    (hdocuments : s'.documents = s.documents.map f) (hclock : s'.clock = s.clock)
    (hname : ∀ entry, (f entry).1 = entry.1)
    (huse : ∀ entry, (f entry).2.lastUse = entry.2.lastUse) : Ranking s' (ranked.map f) where
  perm := by
    rw [hdocuments]
    exact h.perm.map f
  latest := by
    rw [List.pairwise_map]
    refine h.latest.imp fun {a b} hab => ?_
    rw [huse, huse]
    exact hab
  past entry hentry := by
    obtain ⟨before, hbefore, rfl⟩ := List.mem_map.mp hentry
    rw [huse, hclock]
    exact h.past before hbefore
  distinct := by
    have hnames : Keyed.names (ranked.map f) = ranked.names := by
      rw [Keyed.names, List.map_map]
      exact List.map_congr_left fun entry _ => hname entry
    rw [hnames]
    exact h.distinct

/-- Without some documents, the others are ranked as before. -/
theorem Ranking.without (h : Ranking s ranked) (uri : Uri)
    (hdocuments : s'.documents = Keyed.without uri s.documents) (hclock : s'.clock = s.clock) :
    Ranking s' (ranked.without uri) where
  perm := by
    rw [hdocuments]
    exact h.perm.filter _
  latest := h.latest.sublist List.filter_sublist
  past entry hentry := by
    rw [hclock]
    exact h.past entry (Keyed.mem_without.mp hentry).1
  distinct := Keyed.nodup_names_without h.distinct

/-- A document that is used just now is in front of all others. -/
theorem Ranking.front (h : Ranking s ranked)
    (hdocuments : s'.documents.Perm ((uri, d) :: Keyed.without uri s.documents))
    (huse : d.lastUse = s.clock) (hclock : s'.clock = s.clock + 1) :
    Ranking s' ((uri, d) :: ranked.without uri) where
  perm := ((h.perm.filter _).cons (uri, d)).trans hdocuments.symm
  latest := by
    refine List.pairwise_cons.mpr ⟨fun entry hentry => ?_, h.latest.sublist List.filter_sublist⟩
    have := h.past entry (Keyed.mem_without.mp hentry).1
    show entry.2.lastUse < d.lastUse
    omega
  past entry hentry := by
    rcases List.mem_cons.mp hentry with rfl | hrest
    · show d.lastUse < s'.clock
      omega
    · have := h.past entry (Keyed.mem_without.mp hrest).1
      omega
  distinct := List.nodup_cons.mpr
    ⟨Keyed.not_mem_names_without, Keyed.nodup_names_without h.distinct⟩

/-! ### The oldest document -/

/-- A search for the oldest document ends with one that no other is older than. -/
theorem oldest?_cons (first : Uri × HeldDocument) (rest : Keyed HeldDocument) :
    ∃ oldest ∈ first :: rest, oldest? (first :: rest) = some oldest
      ∧ ∀ entry ∈ first :: rest, oldest.2.lastUse ≤ entry.2.lastUse := by
  rw [oldest?, List.foldl_cons]
  -- the search goes on from the best entry so far, whatever that is
  induction rest generalizing first with
  | nil => exact ⟨first, by simp, rfl, by simp⟩
  | cons next rest ih =>
    rw [List.foldl_cons]
    by_cases hnext : next.2.lastUse < first.2.lastUse
    · obtain ⟨oldest, hmem, hfold, hleast⟩ := ih next
      simp only [hnext, ↓reduceIte]
      refine ⟨oldest, List.mem_cons_of_mem first hmem, hfold, fun entry hentry => ?_⟩
      have := hleast next List.mem_cons_self
      rcases List.mem_cons.mp hentry with rfl | hentry
      · omega
      · exact hleast entry hentry
    · obtain ⟨oldest, hmem, hfold, hleast⟩ := ih first
      simp only [hnext, ↓reduceIte]
      have hfirst := hleast first List.mem_cons_self
      refine ⟨oldest, ?_, hfold, fun entry hentry => ?_⟩
      · rcases List.mem_cons.mp hmem with rfl | hmem
        · exact List.mem_cons_self
        · exact List.mem_cons_of_mem _ (List.mem_cons_of_mem _ hmem)
      · rcases List.mem_cons.mp hentry with rfl | hentry
        · exact hfirst
        · rcases List.mem_cons.mp hentry with rfl | hentry
          · omega
          · exact hleast entry (List.mem_cons_of_mem _ hentry)

theorem clock_evict (s : Store) : s.evict.clock = s.clock := by
  rw [evict]
  split <;> rfl

/-- The document that is dropped is the last of the ranking. -/
theorem Ranking.evict (h : Ranking s ranked) : Ranking s.evict ranked.dropLast := by
  rcases List.eq_nil_or_concat ranked with rfl | ⟨others, last, rfl⟩
  · have hnone : s.documents = [] := h.perm.nil_eq.symm
    rw [Store.evict, hnone]
    exact h
  · rw [List.concat_eq_append] at h ⊢
    rw [List.dropLast_concat]
    have hlatest := List.pairwise_append.mp h.latest
    have hlast : ∀ entry ∈ others, last.2.lastUse < entry.2.lastUse :=
      fun entry hentry => hlatest.2.2 entry hentry last (by simp)
    -- the search finds an entry that is not younger than the last one, so it is that one
    have holdest : oldest? s.documents = some last := by
      cases hdocuments : s.documents with
      | nil =>
        have := h.perm.length_eq
        simp [hdocuments] at this
      | cons first rest =>
        obtain ⟨oldest, hmem, hsome, hleast⟩ := oldest?_cons first rest
        rw [hsome]
        rw [← hdocuments] at hmem hleast
        have hle := hleast last (h.perm.mem_iff.mp (by simp))
        rcases List.mem_append.mp (h.perm.mem_iff.mpr hmem) with hothers | hself
        · have := hlast oldest hothers
          omega
        · rw [List.mem_singleton.mp hself]
    have hnames := h.distinct
    rw [Keyed.names, List.map_append, List.map_singleton, List.nodup_append] at hnames
    have hothers : Keyed.without last.1 (others ++ [last]) = others := by
      have hnot : last.1 ∉ Keyed.names others := fun hmem => hnames.2.2 _ hmem _ (by simp) rfl
      rw [Keyed.without, List.filter_append, List.filter_cons_of_neg (by simp), List.filter_nil,
        List.append_nil]
      exact Keyed.without_of_not_mem hnot
    have hevict : s.evict.documents = Keyed.without last.1 s.documents := by
      rw [Store.evict, holdest]
      rfl
    have hrest := h.without last.1 hevict s.clock_evict
    rw [hothers] at hrest
    exact hrest

end Store

/-! ## The list shows the ranking -/

/-- What the list shows of a document. -/
def shown (entry : Uri × HeldDocument) : Uri × String :=
  (entry.1, entry.2.text)

theorem names_map_shown (ranked : Keyed HeldDocument) :
    Keyed.names (ranked.map shown) = ranked.names := by
  rw [Keyed.names, List.map_map]
  rfl

theorem get?_map_shown (ranked : Keyed HeldDocument) (uri : Uri) :
    Keyed.get? uri (ranked.map shown) = (ranked.get? uri).map (·.text) :=
  Keyed.get?_map_values (fun d : HeldDocument => d.text) uri ranked

theorem without_map_shown (ranked : Keyed HeldDocument) (uri : Uri) :
    Keyed.without uri (ranked.map shown) = (ranked.without uri).map shown :=
  List.filter_map

namespace Recency

/-- The list shows the documents of the store, ranked by their last uses. -/
structure Ranks (r : Recency) (s : Store) : Prop where
  entries : ∃ ranked, s.Ranking ranked ∧ r.entries = ranked.map shown
  maxDocuments : r.maxDocuments = s.maxDocuments
  maxDocumentSize : r.maxDocumentSize = s.maxDocumentSize

variable {r : Recency} {s s' : Store} {uri : Uri} {d : HeldDocument}

theorem ranks_new (maxDocuments maxDocumentSize : Nat) :
    Ranks (new maxDocuments maxDocumentSize) (Store.new maxDocuments maxDocumentSize) where
  entries := ⟨[], ⟨.refl _, .nil, by simp, List.nodup_nil⟩, rfl⟩
  maxDocuments := rfl
  maxDocumentSize := rfl

theorem Ranks.distinct (h : Ranks r s) : s.documents.names.Nodup := by
  obtain ⟨ranked, hranking, -⟩ := h.entries
  exact (hranking.perm.map _).nodup_iff.mp hranking.distinct

theorem Ranks.perm_uris (h : Ranks r s) : s.uris.Perm r.uris := by
  obtain ⟨ranked, hranking, hentries⟩ := h.entries
  rw [uris, hentries, names_map_shown]
  exact (hranking.perm.map _).symm

theorem Ranks.text? (h : Ranks r s) (uri : Uri) : r.text? uri = (s.peek? uri).map (·.text) := by
  obtain ⟨ranked, hranking, hentries⟩ := h.entries
  rw [Recency.text?, hentries, get?_map_shown, Keyed.get?_of_perm hranking.perm hranking.distinct,
    Store.peek?]

theorem Ranks.length (h : Ranks r s) : r.entries.length = s.documents.length := by
  have := h.perm_uris.length_eq
  simpa [uris, Store.uris, Keyed.names] using this.symm

theorem Ranks.mem_uris (h : Ranks r s) : uri ∈ r.uris ↔ Keyed.has uri s.documents = true :=
  h.perm_uris.mem_iff.symm.trans Keyed.has_iff_mem_names.symm

/-! ### Changes of the store -/

/-- Limits and counts do not matter to the order. -/
theorem Ranks.of_documents {r' : Recency} (h : Ranks r s) (hentries : r'.entries = r.entries)
    (hdocuments : s'.documents = s.documents) (hclock : s'.clock = s.clock)
    (hmax : r'.maxDocuments = s'.maxDocuments)
    (hsize : r'.maxDocumentSize = s'.maxDocumentSize) : Ranks r' s' := by
  obtain ⟨ranked, hranking, hshown⟩ := h.entries
  refine ⟨⟨ranked, ⟨?_, hranking.latest, ?_, hranking.distinct⟩, hentries.trans hshown⟩, hmax,
    hsize⟩
  · rw [hdocuments]
    exact hranking.perm
  · rw [hclock]
    exact hranking.past

/-- What leaves documents their names, texts and last uses is not shown. -/
theorem Ranks.map (h : Ranks r s) {f : Uri × HeldDocument → Uri × HeldDocument}
    (hdocuments : s'.documents = s.documents.map f) (hclock : s'.clock = s.clock)
    (hshown : ∀ entry, shown (f entry) = shown entry)
    (huse : ∀ entry, (f entry).2.lastUse = entry.2.lastUse)
    (hmax : s'.maxDocuments = s.maxDocuments) (hsize : s'.maxDocumentSize = s.maxDocumentSize) :
    Ranks r s' := by
  obtain ⟨ranked, hranking, hentries⟩ := h.entries
  have hname : ∀ entry, (f entry).1 = entry.1 := fun entry =>
    congrArg (fun e : Uri × String => e.1) (hshown entry)
  have hranking' := hranking.map hdocuments hclock hname huse
  refine ⟨⟨_, hranking', ?_⟩, h.maxDocuments.trans hmax.symm, h.maxDocumentSize.trans hsize.symm⟩
  rw [hentries, List.map_map]
  exact List.map_congr_left fun entry _ => (hshown entry).symm

/-- A change of one document that leaves its text and its last use is not shown. -/
theorem Ranks.adjust (h : Ranks r s) {change : HeldDocument → HeldDocument}
    (hdocuments : s'.documents = Keyed.adjust uri change s.documents) (hclock : s'.clock = s.clock)
    (htext : ∀ d, (change d).text = d.text) (huse : ∀ d, (change d).lastUse = d.lastUse)
    (hmax : s'.maxDocuments = s.maxDocuments) (hsize : s'.maxDocumentSize = s.maxDocumentSize) :
    Ranks r s' := by
  refine h.map (hdocuments.trans (Keyed.adjust_eq_map h.distinct change)) hclock ?_ ?_ hmax hsize
  · intro entry
    split
    · rw [shown, htext]
      rfl
    · rfl
  · intro entry
    split
    · exact huse entry.2
    · rfl

theorem Ranks.remove (h : Ranks r s) (uri : Uri) : Ranks (r.remove uri) (s.remove uri).1 := by
  obtain ⟨ranked, hranking, hentries⟩ := h.entries
  refine ⟨⟨_, hranking.without uri rfl rfl, ?_⟩, h.maxDocuments, h.maxDocumentSize⟩
  rw [Recency.remove, hentries, without_map_shown]

theorem Ranks.evict (h : Ranks r s) : Ranks r.dropLast s.evict := by
  obtain ⟨ranked, hranking, hentries⟩ := h.entries
  have hlimits : s.evict.maxDocuments = s.maxDocuments
      ∧ s.evict.maxDocumentSize = s.maxDocumentSize := by
    rw [Store.evict]
    split <;> exact ⟨rfl, rfl⟩
  refine ⟨⟨_, hranking.evict, ?_⟩, h.maxDocuments.trans hlimits.1.symm,
    h.maxDocumentSize.trans hlimits.2.symm⟩
  rw [dropLast, hentries, List.map_dropLast]

/-- A document that is used, with the text that it has then, is in front. -/
theorem Ranks.front (h : Ranks r s) {text : String}
    (hdocuments : s'.documents.Perm ((uri, d) :: Keyed.without uri s.documents))
    (htext : d.text = text) (huse : d.lastUse = s.clock) (hclock : s'.clock = s.clock + 1)
    (hmax : s'.maxDocuments = s.maxDocuments) (hsize : s'.maxDocumentSize = s.maxDocumentSize) :
    Ranks (r.toFront uri text) s' := by
  subst htext
  obtain ⟨ranked, hranking, hentries⟩ := h.entries
  refine ⟨⟨_, hranking.front hdocuments huse hclock, ?_⟩, h.maxDocuments.trans hmax.symm,
    h.maxDocumentSize.trans hsize.symm⟩
  rw [List.map_cons, ← without_map_shown, ← hentries]
  rfl

theorem Ranks.get? (h : Ranks r s) (uri : Uri) : Ranks (r.use uri) (s.get? uri).1 := by
  rw [use, h.text?, Store.get?]
  cases hd : s.peek? uri with
  | none => exact h
  | some d =>
    exact h.front (Keyed.adjust_perm h.distinct hd _) rfl rfl rfl rfl rfl

/-! ### Taking in a text -/

/-- A new document comes to the front of a list that does not have it. -/
theorem Ranks.push (h : Ranks r s) (hnew : uri ∉ r.uris) (text : String) :
    Ranks (r.push uri text)
      { s with documents := s.documents ++ [(uri, s.admitted text)], clock := s.clock + 1 } := by
  have hpush : r.toFront uri text = r.push uri text := by
    rw [toFront, Recency.remove, Keyed.without_of_not_mem hnew]
  have hdocuments : Keyed.without uri s.documents = s.documents :=
    Keyed.without_of_not_mem fun hmem => hnew (h.perm_uris.mem_iff.mp hmem)
  rw [← hpush]
  refine h.front (d := s.admitted text) ?_ rfl rfl rfl rfl rfl
  rw [hdocuments]
  exact List.perm_append_singleton _ _

theorem Ranks.insert (h : Ranks r s) (hnew : uri ∉ r.uris) (text : String) :
    Ranks (if r.maxDocuments ≤ r.entries.length then r.dropLast.push uri text else r.push uri text)
      (s.insert uri text) := by
  have hmissed : Ranks r { s with misses := s.misses + 1 } :=
    h.of_documents rfl rfl rfl h.maxDocuments h.maxDocumentSize
  rw [Store.insert_eq, Store.roomy, h.length, h.maxDocuments]
  split
  · refine hmissed.evict.push (fun hmem => hnew ?_) text
    exact ((List.dropLast_sublist _).map _).subset hmem
  · exact hmissed.push hnew text

theorem text_edited {text : String} (h : d.print = fingerprint text → d.text = text) :
    (Store.edited d text).text = text := by
  by_cases hprint : d.print = fingerprint text
  · rw [Store.edited, if_pos hprint, h hprint]
  · rw [Store.edited, if_neg hprint]

/-- A text is taken in alike, unless another text has its fingerprint and is held in its place. -/
theorem Ranks.put (h : Ranks r s) {text : String}
    (htold : ∀ d, s.peek? uri = some d → d.print = fingerprint text → d.text = text) :
    Ranks (r.put uri text) (s.put uri text).1 := by
  rw [Recency.put, Store.put, h.maxDocumentSize]
  split
  · exact h
  · by_cases hheld : uri ∈ r.uris
    · rw [if_pos hheld, if_pos (h.mem_uris.mp hheld)]
      have hsome := h.mem_uris.mp hheld
      rw [Keyed.has_eq_isSome, Option.isSome_iff_exists] at hsome
      obtain ⟨d, hd⟩ := hsome
      refine h.front (d := { Store.edited d text with lastUse := s.clock }) ?_
        (text_edited (htold d hd)) rfl rfl rfl rfl
      -- the edit and the use are one change of the document
      rw [Store.touch, Keyed.adjust_adjust]
      exact Keyed.adjust_perm h.distinct hd _
    · rw [if_neg hheld, if_neg (fun hhas => hheld (h.mem_uris.mpr hhas))]
      exact h.insert hheld text

/-! ## Runs -/

/-- An operation is followed by the list, if it takes in no text whose fingerprint is that of another
    text that is held in its place. -/
theorem Ranks.perform (h : Ranks r s) (op : Operation)
    (htold : ∀ uri text d, op = .put uri text → s.peek? uri = some d →
      d.print = fingerprint text → d.text = text) :
    Ranks (r.perform op) (s.perform op) := by
  cases op with
  | put uri text => exact h.put fun d => htold uri text d rfl
  | get uri => exact h.get? uri
  | analysis uri => exact h.get? uri
  | accept uri style text =>
    refine h.adjust rfl rfl (fun d => ?_) (fun d => ?_) rfl rfl
    · rw [Store.analysed]
      split <;> rfl
    · rw [Store.analysed]
      split <;> rfl
  | markClean uri => exact h.adjust rfl rfl (fun _ => rfl) (fun _ => rfl) rfl rfl
  | restyle style =>
    show Ranks r (s.restyle style).1
    rw [Store.restyle]
    split
    · exact h
    · exact h.map rfl rfl (fun _ => rfl) (fun _ => rfl) rfl rfl
  | limitDocuments limit => exact h.of_documents rfl rfl rfl rfl h.maxDocumentSize
  | limitSize limit => exact h.of_documents rfl rfl rfl h.maxDocuments rfl
  | remove uri => exact h.remove uri
  | clear =>
    exact ⟨⟨[], ⟨.refl _, .nil, by simp, List.nodup_nil⟩, rfl⟩, h.maxDocuments, h.maxDocumentSize⟩

/-- The texts that come in during a run. -/
def texts (operations : List Operation) : Set String :=
  { text | ∃ uri, Operation.put uri text ∈ operations }

/-- A text that is held is one that came in. -/
theorem text_mem_texts (maxDocuments maxDocumentSize : Nat) (operations : List Operation)
    (uri : Uri) (d : HeldDocument)
    (held : ((Store.new maxDocuments maxDocumentSize).performAll operations).content? uri
      = some d) :
    d.text ∈ texts operations := by
  refine Store.forall_content?_performAll (P := fun d => d.text ∈ texts operations) ?_ ?_ uri d held
  · intro uri d hd
    cases hd
  · intro s op uri d hmem ih outcome
    cases outcome with
    | kept before => exact ih d before
    | admitted before => exact ⟨uri, hmem⟩
    | @edited text d' before =>
      rw [Store.edited]
      split
      · exact ih d' before
      · exact ⟨uri, hmem⟩
    | @analysed style text d' before =>
      rw [Store.analysed]
      split <;> exact ih d' before
    | @cleaned d' before => exact ih d' before
    | @dirtied style d' before => exact ih d' before

theorem ranks_performAll (maxDocuments maxDocumentSize : Nat) (operations : List Operation)
    (told : Set.InjOn fingerprint (texts operations)) :
    Ranks ((new maxDocuments maxDocumentSize).performAll operations)
      ((Store.new maxDocuments maxDocumentSize).performAll operations) := by
  induction operations using List.reverseRecOn with
  | nil => exact ranks_new maxDocuments maxDocumentSize
  | append_singleton operations op ih =>
    have hearlier : texts operations ⊆ texts (operations ++ [op]) := by
      rintro text ⟨uri, hmem⟩
      exact ⟨uri, List.mem_append_left _ hmem⟩
    rw [performAll_concat, Store.performAll_concat]
    refine (ih (told.mono hearlier)).perform op ?_
    -- both texts came in during the run, and the fingerprint of a document is that of its text
    rintro uri text d rfl hd hprint
    have hcontent : ((Store.new maxDocuments maxDocumentSize).performAll operations).content? uri
        = some d.undated := by
      rw [Store.content?, hd, Option.map_some]
    have hheld : d.text ∈ texts operations :=
      text_mem_texts maxDocuments maxDocumentSize operations uri d.undated hcontent
    have hfingerprint : d.print = fingerprint d.text :=
      Store.print_eq_fingerprint maxDocuments maxDocumentSize operations uri d.undated hcontent
    refine told (hearlier hheld) ⟨uri, ?_⟩ (hfingerprint.symm.trans hprint)
    exact List.mem_append_right _ List.mem_cons_self

/-- After every run in which different texts have different fingerprints, the store holds the
    documents that the list shows, and asking for one gives the text that the list shows. -/
theorem uris_perm_and_text_eq (maxDocuments maxDocumentSize : Nat) (operations : List Operation)
    (told : Set.InjOn fingerprint (texts operations)) :
    ((Store.new maxDocuments maxDocumentSize).performAll operations).uris.Perm
        ((new maxDocuments maxDocumentSize).performAll operations).uris
      ∧ ∀ uri, (((Store.new maxDocuments maxDocumentSize).performAll operations).get? uri).2.map
            (·.text)
          = ((new maxDocuments maxDocumentSize).performAll operations).text? uri := by
  have h := ranks_performAll maxDocuments maxDocumentSize operations told
  refine ⟨h.perm_uris, fun uri => ?_⟩
  rw [h.text? uri, Store.get?]
  cases ((Store.new maxDocuments maxDocumentSize).performAll operations).peek? uri <;> rfl

/-- Four documents for two places, of which one is taken away before the last document comes. -/
def crowded : List Operation :=
  [.put "file:///w/a.ifcx" "1", .put "file:///w/b.ifcx" "2", .get "file:///w/a.ifcx",
    .put "file:///w/c.ifcx" "3", .put "file:///w/a.ifcx" "2", .limitDocuments 1,
    .put "file:///w/d.ifcx" "1"]

theorem injOn_texts_crowded : Set.InjOn fingerprint (texts crowded) := by
  have hmem : ∀ text ∈ texts crowded, text ∈ ["1", "2", "3"] := by
    rintro text ⟨uri, huri⟩
    simp only [crowded, List.mem_cons, Operation.put.injEq, reduceCtorEq, List.not_mem_nil, or_false,
      false_or] at huri
    rcases huri with ⟨-, rfl⟩ | ⟨-, rfl⟩ | ⟨-, rfl⟩ | ⟨-, rfl⟩ | ⟨-, rfl⟩ <;> simp
  have htold : ∀ text ∈ ["1", "2", "3"], ∀ text' ∈ ["1", "2", "3"],
      fingerprint text = fingerprint text' → text = text' := by
    decide +kernel
  exact fun text htext text' htext' => htold text (hmem text htext) text' (hmem text' htext')

theorem uris_perm_and_text_eq_crowded :
    Set.InjOn fingerprint (texts crowded)
      ∧ ((new 2 1).performAll crowded).uris = ["file:///w/d.ifcx", "file:///w/a.ifcx"]
      ∧ ((Store.new 2 1).performAll crowded).uris.Perm ((new 2 1).performAll crowded).uris
      ∧ ∀ uri, (((Store.new 2 1).performAll crowded).get? uri).2.map (·.text)
          = ((new 2 1).performAll crowded).text? uri :=
  ⟨injOn_texts_crowded, by decide +kernel, uris_perm_and_text_eq 2 1 crowded injOn_texts_crowded⟩

end Recency

end BimEditor
