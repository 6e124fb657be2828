/-
  BimEditor.Proofs.Graph.EntryOrder

  The order of the entries of a document, and what the graph of identifiers says. In general the last
  reference and the last inheritance count, so that the order matters. It does not where nothing is
  said twice (`Unambiguous`): all that counts for an identifier is then one entry and at most one
  reference to it, wherever they stand (`get?_ofDocument_of_perm`).
-/
import BimEditor.Proofs.Graph.Profile

namespace BimEditor

open BimEditor.Json BimEditor.Text

namespace IdentifierGraph

/-- No two nodes have the same identifier, and of all children that are called by nodes with an
    identifier, none is called twice. -/
structure Unambiguous (nodes : List Node) : Prop where
  identifiers : ((nodes.filter Node.isIdentified).map (·.identifier)).Nodup
  children : ((nodes.filter Node.isIdentified).flatMap fun node => node.childEntries.map (·.2)).Nodup

variable {entries entries' : List (Node × Option Span)} {refs refs' : List ChildReference}
  {nodes : List Node} {x : String}

/-! ## What a profile is made of -/

theorem find?_inheriting (entries : List (Node × Option Span)) (x : String) :
    (entries.reverse.find? fun entry => entry.1.identifier == x && inheritsAny entry.1)
      = (entries.filter fun entry => entry.1.identifier == x).reverse.find?
          fun entry => inheritsAny entry.1 := by
  rw [← List.filter_reverse, List.find?_filter]
  simp only [Bool.decide_and, Bool.decide_eq_true]

/-- A profile is made of the entries of the identifier, of the references that it makes and of those
    to it. -/
theorem profile_congr
    (hentries : (entries.filter fun entry => entry.1.identifier == x)
      = entries'.filter fun entry => entry.1.identifier == x)
    (hby : referencesBy refs x = referencesBy refs' x)
    (hto : (refs.filter fun ref => ref.child == x) = refs'.filter fun ref => ref.child == x) :
    profile entries refs x = profile entries' refs' x := by
  have hlast : lastReference? refs x = lastReference? refs' x := by
    rw [lastReference?, lastReference?, ← List.getLast?_filter, ← List.getLast?_filter, hto]
  have hfirst : (entries.find? fun entry => entry.1.identifier == x)
      = entries'.find? fun entry => entry.1.identifier == x := by
    rw [← List.head?_filter, ← List.head?_filter, hentries]
  simp only [profile, find?_inheriting, hlast, hfirst, hby, hentries]

/-- The references that a node makes. -/
def ownReferences (node : Node) : List ChildReference :=
  node.childEntries.map fun (name, child) => ⟨node.identifier, name, child⟩

theorem parent_of_mem_ownReferences {node : Node} {ref : ChildReference}
    (h : ref ∈ ownReferences node) : ref.parent = node.identifier := by
  obtain ⟨entry, -, rfl⟩ := List.mem_map.1 h
  rfl

theorem map_child_ownReferences (node : Node) :
    (ownReferences node).map (·.child) = node.childEntries.map (·.2) := by
  rw [ownReferences, List.map_map]
  rfl

theorem references_eq_flatMap (nodes : List Node) :
    references nodes = (nodes.filter Node.isIdentified).flatMap ownReferences :=
  rfl

theorem map_child_references (nodes : List Node) :
    (references nodes).map (·.child)
      = (nodes.filter Node.isIdentified).flatMap fun node => node.childEntries.map (·.2) := by
  simp only [references_eq_flatMap, List.map_flatMap, map_child_ownReferences]

/-- The references that an identifier makes are those of its nodes. -/
theorem referencesBy_references (nodes : List Node) (x : String) :
    referencesBy (references nodes) x
      = ((nodes.filter Node.isIdentified).filter fun node => node.identifier == x).flatMap
          ownReferences := by
  rw [referencesBy, references_eq_flatMap, List.filter_flatMap]
  induction nodes.filter Node.isIdentified with
  | nil => rfl
  | cons node rest ih =>
    rw [List.flatMap_cons, ih, List.filter_cons]
    -- a node makes all of its references, or none, under this identifier
    split
    · next hx =>
      rw [List.flatMap_cons, List.filter_eq_self.2]
      intro ref href
      rw [parent_of_mem_ownReferences href, hx]
    · next hx =>
      rw [List.filter_eq_nil_iff.2, List.nil_append]
      intro ref href
      rw [parent_of_mem_ownReferences href]
      exact hx

/-! ## What is said once -/

/-- A reference to a child that no other reference names is the last one to it. -/
theorem lastReference?_of_mem (hdistinct : (refs.map (·.child)).Nodup) {ref : ChildReference}
    (h : ref ∈ refs) : lastReference? refs ref.child = some ref := by
  rw [lastReference?, ← List.getLast?_filter, filter_key_eq_singleton hdistinct h]
  rfl

theorem inheritTargets_of_not_inheritsAny {node : Node} (h : inheritsAny node = false) :
    node.inheritTargets = [] := by
  cases hinherits : node.inherits with
  | none => rw [Node.inheritTargets, hinherits]
  | some i =>
    rw [inheritsAny, hinherits, Option.any_some, Bool.not_eq_false', Inherits.isEmpty,
      List.isEmpty_iff] at h
    simp only [Node.inheritTargets, hinherits, Inherits.targets, h, List.filterMap_nil]

theorem Unambiguous.nodup_entries (hclear : Unambiguous (entries.map (·.1))) :
    ((entries.filter fun entry => entry.1.isIdentified).map
      fun entry => entry.1.identifier).Nodup := by
  have hdistinct := hclear.identifiers
  rw [List.filter_map, List.map_map] at hdistinct
  exact hdistinct

theorem Unambiguous.nodup_references (hclear : Unambiguous nodes) :
    ((references nodes).map (·.child)).Nodup := by
  rw [map_child_references]
  exact hclear.children

/-- What an identifier inherits from is said by its entry alone. -/
theorem inherits_profile_of_nodup
    (hdistinct : ((entries.filter fun entry => entry.1.isIdentified).map
      fun entry => entry.1.identifier).Nodup)
    {entry : Node × Option Span} (hentry : entry ∈ entries) (hid : entry.1.isIdentified = true) :
    (profile entries refs entry.1.identifier).inherits = entry.1.inheritTargets := by
  have hown := filter_key_eq_singleton hdistinct (List.mem_filter.2 ⟨hentry, hid⟩)
  rw [← profile_filter entries (Node.isIdentified_iff.1 hid)]
  simp only [profile, find?_inheriting, hown, List.reverse_singleton, List.find?_singleton]
  cases hany : inheritsAny entry.1 with
  | true => rfl
  | false => exact (inheritTargets_of_not_inheritsAny hany).symm

theorem inherits_profile (hclear : Unambiguous (entries.map (·.1))) {entry : Node × Option Span}
    (hentry : entry ∈ entries) (hid : entry.1.isIdentified = true) :
    (profile entries refs entry.1.identifier).inherits = entry.1.inheritTargets :=
  inherits_profile_of_nodup hclear.nodup_entries hentry hid

/-- So are its children. -/
theorem children_profile_of_nodup
    (hdistinct : ((nodes.filter Node.isIdentified).map (·.identifier)).Nodup) {node : Node}
    (hnode : node ∈ nodes) (hid : node.isIdentified = true) :
    (profile entries (references nodes) node.identifier).children
      = node.childEntries.map (·.2) := by
  have hown := filter_key_eq_singleton hdistinct (List.mem_filter.2 ⟨hnode, hid⟩)
  show (referencesBy (references nodes) node.identifier).map (·.child) = _
  rw [referencesBy_references, hown, List.flatMap_singleton, map_child_ownReferences]

theorem children_profile (hclear : Unambiguous nodes) {node : Node} (hnode : node ∈ nodes)
    (hid : node.isIdentified = true) :
    (profile entries (references nodes) node.identifier).children
      = node.childEntries.map (·.2) :=
  children_profile_of_nodup hclear.identifiers hnode hid

/-- And a child has one name and one parent. -/
theorem lastReference?_references (hclear : Unambiguous nodes) {node : Node} (hnode : node ∈ nodes)
    (hid : node.isIdentified = true) {name child : String}
    (hentry : (name, child) ∈ node.childEntries) :
    lastReference? (references nodes) child = some ⟨node.identifier, name, child⟩ := by
  have hmem : ⟨node.identifier, name, child⟩ ∈ references nodes := by
    rw [references_eq_flatMap, List.mem_flatMap]
    exact ⟨node, List.mem_filter.2 ⟨hnode, hid⟩, List.mem_map.2 ⟨(name, child), hentry, rfl⟩⟩
  exact lastReference?_of_mem hclear.nodup_references hmem

/-! ## Entries in another order -/

theorem profile_of_perm (h : entries.Perm entries') (hclear : Unambiguous (entries.map (·.1)))
    (hx : x ≠ "") :
    profile entries (references (entries.map (·.1))) x
      = profile entries' (references (entries'.map (·.1))) x := by
  have hnodes : ((entries.map (·.1)).filter Node.isIdentified).Perm
      ((entries'.map (·.1)).filter Node.isIdentified) := (h.map _).filter _
  have hrefs : (references (entries.map (·.1))).Perm (references (entries'.map (·.1))) :=
    hnodes.flatMap_right _
  -- entries without an identifier may share the empty one, but say nothing
  rw [← profile_filter entries hx, ← profile_filter entries' hx]
  apply profile_congr
  · exact filter_key_of_perm (h.filter _) hclear.nodup_entries x
  · rw [referencesBy_references, referencesBy_references,
      filter_key_of_perm hnodes hclear.identifiers]
  · exact filter_key_of_perm hrefs hclear.nodup_references x

theorem get?_ofEntries_of_perm (h : entries.Perm entries')
    (hclear : Unambiguous (entries.map (·.1))) (x : String) :
    (ofEntries entries').get? x = (ofEntries entries).get? x := by
  have hmem : x ∈ identifiersOf entries' ↔ x ∈ identifiersOf entries := by
    simp only [mem_identifiersOf, h.mem_iff]
  apply Option.ext
  intro info
  rw [get?_ofEntries_eq_some_iff, get?_ofEntries_eq_some_iff, hmem]
  refine and_congr_right fun hx => ?_
  rw [profile_of_perm h hclear (ne_empty_of_mem hx)]

/-- Where nothing is said twice, the nodes of a document may stand in any order: the graph knows the
    same of each identifier. That is what the one node of the identifier says of what it inherits
    from and of its children, by their names. -/
theorem get?_ofDocument_of_perm {d d' : Document} (hdata : d.data.Perm d'.data)
    (hclear : Unambiguous d.data) :
    (∀ x, (ofDocument d').get? x = (ofDocument d).get? x)
      ∧ ∀ node ∈ d.data, node.isIdentified = true →
          ∃ info, (ofDocument d').get? node.identifier = some info
            ∧ info.inherits = node.inheritTargets
            ∧ info.children = node.childEntries.map (·.2)
            ∧ ∀ name child, (name, child) ∈ node.childEntries →
                Keyed.get? child info.childNames = some name
                  ∧ ∀ below, (ofDocument d').get? child = some below →
                      below.name = some name ∧ below.parent = some node.identifier := by
  -- the entries are the nodes themselves, none with a place
  have hnodes : (d.data.map fun node => (node, (none : Option Span))).map (·.1) = d.data := by
    rw [List.map_map]
    exact List.map_id _
  have hsame : ∀ x, (ofDocument d').get? x = (ofDocument d).get? x :=
    get?_ofEntries_of_perm (hdata.map _) (hnodes.symm ▸ hclear)
  refine ⟨hsame, fun node hnode hid => ?_⟩
  have hentry : (node, (none : Option Span)) ∈ d.data.map fun node => (node, none) :=
    List.mem_map_of_mem hnode
  refine ⟨_, (hsame _).trans (get?_ofEntries_eq_some_iff.2
    ⟨mem_identifiersOf.2 ⟨_, hentry, hid, rfl⟩, rfl⟩), ?_, ?_, ?_⟩
  · exact inherits_profile (hnodes.symm ▸ hclear) hentry hid
  · rw [hnodes]
    exact children_profile hclear hnode hid
  · intro name child hchild
    have hlast := lastReference?_references hclear hnode hid hchild
    rw [hnodes]
    refine ⟨(childName_of_lastReference hlast).2, fun below hbelow => ?_⟩
    -- the child may have no node of its own, but if it has one, this is the last reference to it
    rw [hsame] at hbelow
    obtain ⟨-, rfl⟩ := get?_ofEntries_eq_some_iff.1 hbelow
    rw [hnodes, profile, hlast]
    exact ⟨rfl, rfl⟩

/-- A node without an identifier, which calls a wall its child. -/
def nameless : Node := ⟨"", some [("lost", .string "wall")], none, none⟩

/-- A storey with a wall. -/
def storey : Node := ⟨"storey", some [("north", .string "wall")], none, none⟩

/-- A wall that inherits from a kind of walls, of which the document does not tell. -/
def wall : Node := ⟨"wall", none, some (.list [.string "brick"]), none⟩

/-- A document of these nodes. -/
def building (data : List Node) : Document :=
  ⟨⟨"5", "", ""⟩, [], data⟩

/-- Whether the storey or the wall comes first, the wall has the name that the storey gives it. -/
theorem get?_ofDocument_of_perm_wall :
    (ofDocument (building [wall, nameless, storey, nameless])).get? "wall"
        = some { identifier := "wall", name := some "north", parent := some "storey",
                 inherits := ["brick"] }
      ∧ ∃ info, (ofDocument (building [wall, nameless, storey, nameless])).get? "storey" = some info
        ∧ info.children = ["wall"] ∧ Keyed.get? "wall" info.childNames = some "north" := by
  have hperm : (building [nameless, storey, wall, nameless]).data.Perm
      (building [wall, nameless, storey, nameless]).data := by
    show ([nameless, storey] ++ wall :: [nameless]).Perm (wall :: ([nameless, storey] ++ [nameless]))
    exact List.perm_middle
  have hclear : Unambiguous (building [nameless, storey, wall, nameless]).data :=
    ⟨by decide, by decide⟩
  have hforward : (ofDocument (building [nameless, storey, wall, nameless])).get? "wall"
      = some { identifier := "wall", name := some "north", parent := some "storey",
               inherits := ["brick"] } := by
    decide +kernel
  obtain ⟨hsame, htold⟩ := get?_ofDocument_of_perm hperm hclear
  obtain ⟨info, hinfo, -, hchildren, hnames⟩ :=
    htold storey (List.mem_cons_of_mem _ List.mem_cons_self) (by decide)
  exact ⟨(hsame "wall").trans hforward, info, hinfo, hchildren,
    (hnames "north" "wall" (List.mem_singleton.2 rfl)).1⟩

end IdentifierGraph

end BimEditor
