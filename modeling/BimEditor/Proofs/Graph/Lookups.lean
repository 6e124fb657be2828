/-
  BimEditor.Proofs.Graph.Lookups

  Two ways to ask for the nodes around an identifier. A document searches its list of nodes each
  time; the graph looks into the table that was made of the list before. Where no identifier is
  given to two nodes, both give the same answers (`lookups_eq_graph`).

  A search may come upon nodes without an identifier, which the graph does not have, and a node may
  call something its child that is no node at all, of which the graph still has the identifier. So
  the answers are compared by the identifiers that are known to both.
-/
import BimEditor.Proofs.Graph.EntryOrder

namespace BimEditor

open BimEditor.Json BimEditor.Text BimEditor.IdentifierGraph

/-- The identifiers of those nodes that have one, in order. -/
def identifiersAmong (nodes : List Node) : List String :=
  (nodes.filter Node.isIdentified).map (·.identifier)

namespace Document

variable {d : Document} {p : String}

/-! ## The graph of a document -/

/-- The nodes of a document as entries without a place. -/
def unplaced (nodes : List Node) : List (Node × Option Span) :=
  nodes.map fun node => (node, none)

theorem map_node_unplaced (nodes : List Node) : (unplaced nodes).map (·.1) = nodes := by
  rw [unplaced, List.map_map]
  exact List.map_id _

theorem identifiers_unplaced (nodes : List Node) :
    (((unplaced nodes).filter fun entry => entry.1.isIdentified).map
      fun entry => entry.1.identifier) = identifiersAmong nodes := by
  rw [unplaced, List.filter_map, List.map_map]
  rfl

theorem nodes_ofDocument (d : Document) :
    (ofDocument d).nodes
      = Keyed.table (identifiersOf (unplaced d.data))
          (profile (unplaced d.data) (references d.data)) := by
  have hnodes := nodes_ofEntries (unplaced d.data)
  rwa [map_node_unplaced] at hnodes

theorem get?_ofDocument_eq_some_iff {info : GraphNode} :
    (ofDocument d).get? p = some info
      ↔ p ∈ identifiersOf (unplaced d.data)
        ∧ info = profile (unplaced d.data) (references d.data) p := by
  have hget := @get?_ofEntries_eq_some_iff (unplaced d.data) p info
  rwa [map_node_unplaced] at hget

theorem mem_identifiersOf_unplaced :
    p ∈ identifiersOf (unplaced d.data) ↔ p ∈ identifiersAmong d.data := by
  rw [← identifiers_unplaced, ← firstIdentifiers_filter, firstIdentifiers, List.mem_eraseDups]

theorem has_ofDocument : (ofDocument d).has p = true ↔ p ∈ identifiersAmong d.data :=
  (@has_ofEntries (unplaced d.data) p).trans mem_identifiersOf_unplaced

theorem mem_identifiersAmong {nodes : List Node} :
    p ∈ identifiersAmong nodes
      ↔ ∃ node ∈ nodes, node.isIdentified = true ∧ node.identifier = p := by
  simp only [identifiersAmong, List.mem_map, List.mem_filter, and_assoc]

/-- With distinct identifiers, the graph has one node for each node that has an identifier. -/
theorem infos_ofDocument (hdistinct : (identifiersAmong d.data).Nodup) :
    (ofDocument d).infos
      = (d.data.filter Node.isIdentified).map fun node =>
          profile (unplaced d.data) (references d.data) node.identifier := by
  have honce : identifiersOf (unplaced d.data) = identifiersAmong d.data := by
    rw [← firstIdentifiers_filter, firstIdentifiers, identifiers_unplaced,
      eraseDups_of_nodup hdistinct]
  rw [infos, nodes_ofDocument, honce, Keyed.table, identifiersAmong, List.map_map, List.map_map]
  rfl

/-! ## Finding a node -/

theorem find?_eq_some {node : Node} (h : d.find? p = some node) :
    node ∈ d.data ∧ node.identifier = p :=
  ⟨List.mem_of_find?_eq_some h, by simpa using List.find?_some h⟩

/-- A node with an identifier is found exactly where the graph knows that identifier. -/
theorem isSome_find? (hp : p ≠ "") : (d.find? p).isSome = (ofDocument d).has p := by
  rw [Bool.eq_iff_iff, has_ofDocument, mem_identifiersAmong, find?, List.find?_isSome]
  refine exists_congr fun node => and_congr_right fun _ => ?_
  rw [beq_iff_eq]
  refine ⟨fun h => ⟨?_, h⟩, fun h => h.2⟩
  exact Node.isIdentified_iff.2 (h ▸ hp)

/-- A node that is found by an identifier has that identifier, and one is found exactly where the
    graph knows it. By the empty identifier only nodes without one are found. -/
theorem identifier_find? (p : String) :
    ((d.find? p).filter Node.isIdentified).map (·.identifier)
      = Option.guard (ofDocument d).has p := by
  by_cases hp : p = ""
  · have hunknown : (ofDocument d).has p = false := by
      rw [← Bool.not_eq_true, has_ofDocument, mem_identifiersAmong]
      rintro ⟨node, -, hid, rfl⟩
      exact Node.isIdentified_iff.1 hid hp
    have hnone : (d.find? p).filter Node.isIdentified = none := by
      rw [Option.filter_eq_none_iff]
      intro node hnode hid
      obtain ⟨-, rfl⟩ := find?_eq_some hnode
      exact Node.isIdentified_iff.1 hid hp
    rw [hnone, Option.guard, hunknown]
    rfl
  · rw [Option.guard, ← isSome_find? hp]
    cases hfound : d.find? p with
    | none => rfl
    | some node =>
      obtain ⟨-, rfl⟩ := find?_eq_some hfound
      simp [Node.isIdentified_iff.2 hp]

/-! ## Children -/

/-- The children that are found are those that the graph knows. -/
theorem identifiersAmong_children (node : Node) :
    identifiersAmong (node.childEntries.filterMap fun entry => d.find? entry.2)
      = (node.childEntries.map (·.2)).filter (ofDocument d).has := by
  rw [identifiersAmong, List.filter_filterMap, List.map_filterMap, ← List.filterMap_eq_filter,
    List.filterMap_map]
  refine congrArg (List.filterMap · _) (funext fun entry => ?_)
  exact identifier_find? entry.2

theorem identifiersAmong_childNodes (hdistinct : (identifiersAmong d.data).Nodup) (hp : p ≠ "")
    {info : GraphNode} (hinfo : (ofDocument d).get? p = some info) :
    identifiersAmong (d.childNodes p) = info.children.filter (ofDocument d).has := by
  obtain ⟨hknown, rfl⟩ := get?_ofDocument_eq_some_iff.1 hinfo
  -- the node that tells the children is the one that is found
  have hsome : (d.find? p).isSome = true := by
    rw [isSome_find? hp, has_ofDocument]
    exact mem_identifiersOf_unplaced.1 hknown
  obtain ⟨node, hfound⟩ := Option.isSome_iff_exists.1 hsome
  obtain ⟨hnode, rfl⟩ := find?_eq_some hfound
  rw [children_profile_of_nodup hdistinct hnode (Node.isIdentified_iff.2 hp), childNodes, hfound]
  exact identifiersAmong_children node

/-- What is not known has no children. -/
theorem childNodes_eq_nil (hp : p ≠ "") (hunknown : (ofDocument d).has p = false) :
    d.childNodes p = [] := by
  rw [← isSome_find? hp, Option.isSome_eq_false_iff, Option.isNone_iff_eq_none] at hunknown
  rw [childNodes, hunknown]

/-! ## Heirs -/

/-- The nodes that inherit from an identifier are those that do so in the graph. -/
theorem identifiersAmong_inheritingNodes (hdistinct : (identifiersAmong d.data).Nodup)
    (p : String) :
    identifiersAmong (d.inheritingNodes p)
      = ((ofDocument d).infos.filter fun info => info.inherits.contains p).map
          (·.identifier) := by
  have hentries : (((unplaced d.data).filter fun entry => entry.1.isIdentified).map
      fun entry => entry.1.identifier).Nodup := by
    rwa [identifiers_unplaced]
  have hswap : (d.inheritingNodes p).filter Node.isIdentified
      = (d.data.filter Node.isIdentified).filter fun node => node.inheritTargets.contains p := by
    simp only [inheritingNodes, List.filter_filter, Bool.and_comm]
  rw [infos_ofDocument hdistinct, List.filter_map, List.map_map, identifiersAmong, hswap]
  refine congrArg (List.map _) (List.filter_congr fun node hnode => ?_)
  obtain ⟨hmem, hidentified⟩ := List.mem_filter.1 hnode
  have hentry : (node, (none : Option Span)) ∈ unplaced d.data := List.mem_map_of_mem hmem
  rw [Function.comp_apply, inherits_profile_of_nodup hentries hentry hidentified]

/-! ## All lookups -/

/-- Where no two nodes of a document have the same identifier, a node is found by its identifier
    exactly if the graph has it. Its children that are nodes with an identifier are then those that
    the graph tells and also has, in the same order; what the graph does not have, has no children.
    And the nodes that inherit from it are those of which the graph tells that, in its order. -/
theorem lookups_eq_graph (hdistinct : (identifiersAmong d.data).Nodup) (hp : p ≠ "") :
    (d.find? p).isSome = (ofDocument d).has p
      ∧ (∀ info, (ofDocument d).get? p = some info →
          identifiersAmong (d.childNodes p) = info.children.filter (ofDocument d).has)
      ∧ ((ofDocument d).has p = false → d.childNodes p = [])
      ∧ identifiersAmong (d.inheritingNodes p)
        = ((ofDocument d).infos.filter fun info => info.inherits.contains p).map
            (·.identifier) :=
  ⟨isSome_find? hp, fun _ => identifiersAmong_childNodes hdistinct hp, childNodes_eq_nil hp,
    identifiersAmong_inheritingNodes hdistinct p⟩

/-- A hall that lists itself, a door, a node that is missing, nodes without an identifier and a
    number, and inherits from itself. -/
def hall : Node :=
  ⟨"hall", some [("own", .string "hall"), ("lost", .string "attic"), ("nameless", .string ""),
    ("count", .object []), ("north", .string "door")], some (.list [.string "hall", .null]), none⟩

/-- A door that inherits from the hall and from a kind of doors, which is not told of. -/
def door : Node :=
  ⟨"door", none, some (.mapping [("kind", .string "oak"), ("of", .string "hall")]), none⟩

/-- A node without an identifier that calls the door its child and inherits from the hall. -/
def anonymous : Node :=
  ⟨"", some [("south", .string "door")], some (.list [.string "hall"]), none⟩

/-- The hall and the door, the door first. -/
def house : Document :=
  building [anonymous, door, hall, anonymous]

theorem lookups_eq_graph_house :
    (identifiersAmong house.data).Nodup ∧ "hall" ≠ "" ∧ (house.find? "hall").isSome = true
      ∧ identifiersAmong (house.childNodes "hall") = ["hall", "door"]
      ∧ identifiersAmong (house.inheritingNodes "hall") = ["door", "hall"] := by
  have hdistinct : (identifiersAmong house.data).Nodup := by decide
  have hinfo : (ofDocument house).get? "hall" = some
      { identifier := "hall", name := some "own", parent := some "hall", inherits := ["hall"],
        children := ["hall", "attic", "", "door"],
        childNames := [("hall", "own"), ("attic", "lost"), ("", "nameless"), ("door", "north")] } := by
    decide +kernel
  have hknown : ["hall", "attic", "", "door"].filter (ofDocument house).has = ["hall", "door"] := by
    decide +kernel
  have hheirs : (((ofDocument house).infos.filter fun info => info.inherits.contains "hall").map
      (·.identifier)) = ["door", "hall"] := by
    decide +kernel
  obtain ⟨hfound, hchildren, -, hinheriting⟩ := lookups_eq_graph hdistinct (by decide : "hall" ≠ "")
  refine ⟨hdistinct, by decide, ?_, (hchildren _ hinfo).trans hknown, hinheriting.trans hheirs⟩
  rw [hfound, has_ofDocument]
  decide

end Document

end BimEditor
