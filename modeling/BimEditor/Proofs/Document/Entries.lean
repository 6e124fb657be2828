/-
  BimEditor.Proofs.Document.Entries

  What a document that was read has to do with the tree it was read from: the tree is the one of the
  text, its schema table is an object whose members name the schemas (`has_schemas_iff`), its data
  list is an array, and each node is read from one item of it (`entries_eq_map`). The items stand
  one behind another in the text, so the place of a key tells which item it belongs to
  (`content_inside_iff`).
-/
import BimEditor.Document.Reader
import BimEditor.Proofs.Json.Acceptance
import BimEditor.Proofs.Json.KeyedLists
import BimEditor.Proofs.Json.Projection
import BimEditor.Proofs.Json.SpanOrder

namespace BimEditor

open BimEditor.Json BimEditor.Text

variable {limits : Limits} {text : List Char} {p : ParsedDocument}

/-! ## Reading an envelope -/

/-- Two steps succeed if the first one does and then the second. -/
theorem bind_eq_ok {ε α β : Type} {x : Except ε α} {f : α → Except ε β} {b : β}
    (h : x >>= f = .ok b) : ∃ a, x = .ok a ∧ f a = .ok b := by
  cases x with
  | ok a => exact ⟨a, rfl, h⟩
  | error e => cases h

/-- What was computed of a result holds of a value that there is. -/
theorem exists_of_any_toOption {ε α : Type} {x : Except ε α} {q : α → Bool}
    (h : x.toOption.any q = true) : ∃ a, x = .ok a ∧ q a = true := by
  cases x with
  | ok a => exact ⟨a, rfl, h⟩
  | error e => cases h

theorem of_shapedMember_eq_ok {α : Type} {t : Tree} {field : String} {shape : Tree → Option α}
    {a : α} (h : shapedMember t field shape = .ok a) :
    ∃ u, t.get? field = some u ∧ shape u = some a := by
  rw [shapedMember] at h
  split at h
  · cases h
  · next u hu =>
    split at h
    · cases h
    · next a' ha =>
      obtain rfl := Except.ok.inj h
      exact ⟨u, (Option.filter_eq_some_iff.1 hu).1, ha⟩

/-- The schemas and the data of an envelope are what the members of these names hold. -/
theorem Envelope.parts_of_ofTree {t : Tree} {e : Envelope} (h : Envelope.ofTree t = .ok e) :
    (∃ u, t.get? "schemas" = some u ∧ u.members? = some e.schemas)
      ∧ ∃ u, t.get? "data" = some u ∧ u.items? = some e.data := by
  unfold Envelope.ofTree at h
  dsimp only at h
  -- nothing is read of a tree that is no object or has no header
  split at h
  · cases h
  split at h
  case h_2 => cases h
  obtain ⟨header, -, h⟩ := bind_eq_ok h
  obtain ⟨version, -, h⟩ := bind_eq_ok h
  obtain ⟨author, -, h⟩ := bind_eq_ok h
  obtain ⟨timestamp, -, h⟩ := bind_eq_ok h
  obtain ⟨schemas, hschemas, h⟩ := bind_eq_ok h
  obtain ⟨data, hdata, h⟩ := bind_eq_ok h
  obtain rfl := Except.ok.inj h
  exact ⟨of_shapedMember_eq_ok hschemas, of_shapedMember_eq_ok hdata⟩

namespace ParsedDocument

theorem of_read (h : ParsedDocument.read limits text = .ok p) :
    Json.read limits text = .ok p.tree
      ∧ ∃ e, Envelope.ofTree p.tree = .ok e ∧ p.document = e.document := by
  rw [ParsedDocument.read] at h
  split at h
  · cases h
  · next tree htree =>
    obtain ⟨e, he, h⟩ := bind_eq_ok h
    obtain rfl := Except.ok.inj h
    exact ⟨htree, e, he, rfl⟩

/-! ## The schema table -/

/-- The schema table is an object of the tree, and the schemas are collected from its members. -/
theorem schemas_of_read (h : ParsedDocument.read limits text = .ok p) :
    ∃ u, p.tree.get? "schemas" = some u ∧ u.members? = some p.schemaMembers
      ∧ p.document.schemas
        = Keyed.collect (p.schemaMembers.map fun m => (m.1.name, Schema.ofValue m.2.toValue)) := by
  obtain ⟨-, e, he, hdocument⟩ := of_read h
  obtain ⟨⟨u, hu, hmembers⟩, -⟩ := Envelope.parts_of_ofTree he
  have hschemas : p.schemaMembers = e.schemas := by
    rw [schemaMembers, hu, Option.bind_some, hmembers, Option.getD_some]
  rw [hschemas, hdocument]
  exact ⟨u, hu, hmembers, rfl⟩

/-- A document has a schema if and only if a member of its table has that name. -/
theorem has_schemas_iff (h : ParsedDocument.read limits text = .ok p) {name : String} :
    Keyed.has name p.document.schemas = true ↔ ∃ m ∈ p.schemaMembers, m.1.name = name := by
  obtain ⟨-, -, -, hschemas⟩ := schemas_of_read h
  rw [hschemas, Keyed.has_eq_isSome, Keyed.get?_collect, Option.isSome_map, ← List.map_reverse,
    List.find?_map, Option.isSome_map, List.find?_isSome]
  simp only [List.mem_reverse, Function.comp_apply, beq_iff_eq]

/-- A name of the schema table is defined at one of the members of that name. -/
theorem schemaDefinition?_eq_some (h : ParsedDocument.read limits text = .ok p) {name : String}
    (hname : ∃ m ∈ p.schemaMembers, m.1.name = name) :
    ∃ m ∈ p.schemaMembers, m.1.name = name ∧ p.schemaDefinition? name = some m.1.content := by
  obtain ⟨u, hu, hmembers, -⟩ := schemas_of_read h
  obtain ⟨m, hm, hmname⟩ := hname
  cases hfind : p.schemaMembers.reverse.find? fun m => m.1.name == name with
  | none =>
    have hmiss := List.find?_eq_none.1 hfind m (List.mem_reverse.2 hm)
    exact absurd (beq_iff_eq.2 hmname) hmiss
  | some last =>
    refine ⟨last, List.mem_reverse.1 (List.mem_of_find?_eq_some hfind), ?_, ?_⟩
    · simpa using List.find?_some hfind
    · rw [schemaDefinition?, hu, Option.bind_some, Tree.entry?, hmembers, Option.bind_some, hfind]
      rfl

/-! ## The data list -/

/-- The data list is an array of the tree, and the nodes are read from its items. -/
theorem data_of_read (h : ParsedDocument.read limits text = .ok p) :
    ∃ u, p.tree.get? "data" = some u ∧ u.items? = some p.dataItems
      ∧ p.document.data = p.dataItems.map fun t => Node.ofValue t.toValue := by
  obtain ⟨-, e, he, hdocument⟩ := of_read h
  obtain ⟨-, u, hu, hitems⟩ := Envelope.parts_of_ofTree he
  have hdata : p.dataItems = e.data := by
    rw [dataItems, hu, Option.bind_some, hitems, Option.getD_some]
  rw [hdata, hdocument]
  exact ⟨u, hu, hitems, rfl⟩

/-- Each node goes with the item that it was read from. -/
theorem entries_eq_map (h : ParsedDocument.read limits text = .ok p) :
    p.entries = p.dataItems.map fun t => (Node.ofValue t.toValue, t) := by
  obtain ⟨-, -, -, hdata⟩ := data_of_read h
  rw [entries, hdata]
  induction p.dataItems with
  | nil => rfl
  | cons t ts ih => rw [List.map_cons, List.zip_cons_cons, ih, List.map_cons]

theorem mem_entries_iff (h : ParsedDocument.read limits text = .ok p) {node : Node} {entry : Tree} :
    (node, entry) ∈ p.entries ↔ entry ∈ p.dataItems ∧ node = Node.ofValue entry.toValue := by
  rw [entries_eq_map h, List.mem_map]
  constructor
  · rintro ⟨t, ht, heq⟩
    obtain ⟨rfl, rfl⟩ := Prod.mk.inj heq
    exact ⟨ht, rfl⟩
  · rintro ⟨hentry, rfl⟩
    exact ⟨entry, hentry, rfl⟩

/-- The data list stands in the text. -/
theorem located_data (h : ParsedDocument.read limits text = .ok p) :
    ∃ o s span, Located (ByRule limits.rules.number?) o s (.value (.array span p.dataItems)) := by
  obtain ⟨htree, -⟩ := of_read h
  obtain ⟨u, hu, hitems, -⟩ := data_of_read h
  obtain ⟨b₁, s, b₂, -, -, -, hloc, -⟩ := (read_eq_ok_iff.1 htree).2
  obtain ⟨-, before, part, after, -, hpart⟩ := hloc.node (Tree.mem_nodes_of_get? hu)
  obtain ⟨span, rfl⟩ := Tree.eq_array_of_items? hitems
  exact ⟨_, _, _, hpart⟩

/-- What stands between the quotes of a key stands inside of the item that the key belongs to, and
    inside of no other. -/
theorem content_inside_iff (h : ParsedDocument.read limits text = .ok p) {entry other : Tree}
    {key : Key} (hentry : entry ∈ p.dataItems) (hother : other ∈ p.dataItems)
    (hkey : key ∈ other.keys) : key.content.Inside entry.span ↔ other = entry := by
  obtain ⟨o, s, span, hloc⟩ := located_data h
  constructor
  · exact hloc.eq_of_content_inside hentry hother hkey
  · rintro rfl
    obtain ⟨-, before, part, after, -, hpart⟩ := hloc.node (Tree.mem_nodes_array hother)
    obtain ⟨hstart, -, hstop⟩ := hpart.content_inside hkey
    rw [hpart.span]
    exact ⟨Nat.le_of_lt hstart, Nat.le_of_lt hstop⟩

end ParsedDocument

end BimEditor
