/-
  BimEditor.Proofs.Document.Views

  Two views of one document: the tree, whose objects hold all their members, and the plain values,
  whose objects hold one member of each name. A lookup in the tree finds the last member of a name
  (`entry?_eq_some_iff`), and so does the plain value: it has the names of an object where they
  stand first, each with what a lookup in the tree finds (`members?_toValue_eq_fields?`). So a node
  is the same whether its fields are taken from the plain value of an entry or looked up in the
  entry itself (`Node.ofValue_eq_ofTree`).
-/
import BimEditor.Proofs.Document.Entries
import Mathlib.Data.List.Basic

namespace BimEditor

open BimEditor.Json BimEditor.Text

namespace Json.Tree

/-! ## Lookups in a tree -/

theorem entry?_eq_some_iff {t : Tree} {name : String} {m : Key × Tree} :
    t.entry? name = some m
      ↔ ∃ members, t.members? = some members ∧ IsLast members m ∧ m.1.name = name := by
  unfold entry?
  rw [Option.bind_eq_some_iff]
  constructor
  · rintro ⟨members, hmembers, hfind⟩
    have hname : m.1.name = name := by simpa using List.find?_some hfind
    subst hname
    exact ⟨members, hmembers, isLast_iff_find?.2 hfind, rfl⟩
  · rintro ⟨members, hmembers, hlast, rfl⟩
    exact ⟨members, hmembers, isLast_iff_find?.1 hlast⟩

/-- The names of the members of an object, each where it stands first. -/
def names? (t : Tree) : Option (List String) :=
  t.members?.map fun members => (members.map fun m => m.1.name).eraseDups

/-- The members of an object as lookups find them, one for each name. -/
def fields? (t : Tree) : Option (Keyed Value) :=
  t.names?.map fun names =>
    names.filterMap fun name => (t.get? name).map fun u => (name, u.toValue)

/-- The names of an object keep their order in its plain value. -/
theorem names_toValue (t : Tree) : t.toValue.members?.map Keyed.names = t.names? := by
  rw [members?_toValue, names?, Option.map_map]
  congr 1
  funext members
  rw [Function.comp_apply, Keyed.names_collect, memberValues_eq_map, Keyed.names, List.map_map]
  rfl

end Json.Tree

/-- A list of distinct names holds for each of them what a lookup of it finds. -/
theorem Json.Keyed.eq_filterMap_get? {α : Type} {entries : Keyed α}
    (hdistinct : entries.names.Nodup) :
    entries
      = entries.names.filterMap fun name => (entries.get? name).map fun value => (name, value) := by
  rw [Keyed.names, List.filterMap_map]
  symm
  have hfound : ∀ entry ∈ entries,
      ((entries.get? entry.1).map fun value => (entry.1, value)) = some entry := by
    intro entry hentry
    rw [Keyed.get?_of_mem hdistinct hentry, Option.map_some]
  exact (List.filterMap_congr hfound).trans List.filterMap_some

namespace Json.Tree

/-- The plain value of an object has the members that lookups in the object find. -/
theorem members?_toValue_eq_fields? (t : Tree) : t.toValue.members? = t.fields? := by
  rw [fields?, ← names_toValue, Option.map_map]
  cases hmembers : t.toValue.members? with
  | none => rfl
  | some entries =>
    have hdistinct : (Keyed.names entries).Nodup := by
      rw [members?_toValue, Option.map_eq_some_iff] at hmembers
      obtain ⟨members, -, rfl⟩ := hmembers
      exact Keyed.nodup_names_collect _
    rw [Option.map_some, Function.comp_apply]
    congr 1
    refine (Keyed.eq_filterMap_get? hdistinct).trans ?_
    congr 1
    funext name
    -- looking up a name in the tree is looking it up in the plain value
    have hget : (t.get? name).map toValue = Keyed.get? name entries := by
      rw [get?_toValue, Value.member?, hmembers, Option.bind_some]
    rw [← hget, Option.map_map]
    rfl

/-- What a node with this tree as its `inherits` inherits from: the items of an array, or the
    members of an object as lookups find them. -/
def inherits? (t : Tree) : Option Inherits :=
  (t.items?.map fun items => .list (items.map toValue)).or (t.fields?.map .mapping)

theorem inherits?_toValue (t : Tree) : Inherits.ofValue? t.toValue = t.inherits? := by
  cases t with
  | leaf span x => rfl
  | array span items =>
    rw [toValue, itemValues_eq_map]
    rfl
  | object span members =>
    have hfields := members?_toValue_eq_fields? (.object span members)
    rw [inherits?, ← hfields]
    rfl

end Json.Tree

/-! ## Nodes -/

/-- The node that an entry of the data list holds, by lookups in the entry; what has the wrong shape
    is absent. -/
def Node.ofTree (entry : Tree) : Node where
  identifier := ((entry.get? "identifier").bind Tree.string?).getD ""
  children := (entry.get? "children").bind Tree.fields?
  inherits := (entry.get? "inherits").bind Tree.inherits?
  attributes := (entry.get? "attributes").bind Tree.fields?

/-- Reading a field of the plain value is looking it up in the tree. -/
theorem bind_member?_toValue {α : Type} {f : Value → Option α} {g : Tree → Option α}
    (h : ∀ u : Tree, f u.toValue = g u) (name : String) (t : Tree) :
    (t.toValue.member? name).bind f = (t.get? name).bind g := by
  rw [← Tree.get?_toValue]
  cases t.get? name with
  | none => rfl
  | some u => exact h u

theorem Node.ofValue_eq_ofTree (entry : Tree) : Node.ofValue entry.toValue = Node.ofTree entry := by
  unfold Node.ofValue Node.ofTree
  rw [bind_member?_toValue Tree.string?_toValue,
    bind_member?_toValue Tree.members?_toValue_eq_fields?,
    bind_member?_toValue Tree.inherits?_toValue,
    bind_member?_toValue Tree.members?_toValue_eq_fields?]

/-- The value of a field of a field is found in the tree by two lookups. -/
theorem get?_bind_fields? (t : Tree) (field name : String) :
    ((t.get? field).bind Tree.fields?).bind (Keyed.get? name)
      = ((t.get? field).bind (Tree.get? name)).map Tree.toValue := by
  cases t.get? field with
  | none => rfl
  | some u =>
    rw [Option.bind_some, Option.bind_some, Tree.get?_toValue, Value.member?,
      Tree.members?_toValue_eq_fields?]

/-! ## Both views -/

/-- A lookup in a tree, with the spans of what it finds forgotten, is a lookup in the plain value;
    it finds the last member of a name, and the plain value has the names in the order of their
    first members. So every node of a document that was read holds what lookups in its entry find,
    and each of its attributes is what two lookups find. -/
theorem views_agree :
    (∀ (t : Tree) (name : String), (t.get? name).map Tree.toValue = t.toValue.member? name)
      ∧ (∀ (t : Tree) (name : String) (m : Key × Tree), t.entry? name = some m
        ↔ ∃ members, t.members? = some members ∧ IsLast members m ∧ m.1.name = name)
      ∧ (∀ t : Tree, t.toValue.members?.map Keyed.names
        = t.members?.map fun members => (members.map fun m => m.1.name).eraseDups)
      ∧ ∀ (limits : Limits) (text : List Char) (p : ParsedDocument),
        ParsedDocument.read limits text = .ok p → ∀ node entry, (node, entry) ∈ p.entries →
          node = Node.ofTree entry
            ∧ ∀ name, node.attributes.bind (Keyed.get? name)
              = ((entry.get? "attributes").bind (Tree.get? name)).map Tree.toValue := by
  refine ⟨fun t name => Tree.get?_toValue name t, fun t name m => Tree.entry?_eq_some_iff,
    Tree.names_toValue, ?_⟩
  intro limits text p hread node entry hentry
  obtain ⟨-, rfl⟩ := (ParsedDocument.mem_entries_iff hread).1 hentry
  rw [Node.ofValue_eq_ofTree]
  exact ⟨rfl, get?_bind_fields? entry "attributes"⟩

/-- A document with a node that has two identifiers, one attribute twice, and children of the wrong
    shape. -/
def repeatedFields : List Char :=
  "\x7b\"header\":\x7b\"version\":\"1\",\"author\":\"a\",\"timestamp\":\"t\"\x7d,".toList
    ++ "\"schemas\":\x7b\x7d,\"data\":[\x7b\"identifier\":\"a\",\"children\":7,".toList
    ++ "\"attributes\":\x7b\"n\":1,\"m\":2,\"n\":null\x7d,\"identifier\":\"b\"\x7d]\x7d".toList

/-- The last of the repeated fields count, also in the tree. -/
theorem views_agree_repeatedFields :
    ∃ p node entry, ParsedDocument.read .standard repeatedFields = .ok p
      ∧ (node, entry) ∈ p.entries ∧ node = Node.ofTree entry
      ∧ node.identifier = "b" ∧ node.children = none
      ∧ node.attributes.map Keyed.names = some ["n", "m"]
      ∧ ((entry.get? "attributes").bind (Tree.get? "n")).map Tree.toValue = some .null := by
  have hcomputed : ((ParsedDocument.read .standard repeatedFields).toOption.any fun p =>
      p.entries.any fun e =>
        e.1.identifier == "b" && decide (e.1.children = none)
          && decide (e.1.attributes.map Keyed.names = some ["n", "m"])
          && decide (e.1.attributes.bind (Keyed.get? "n") = some .null)) = true := by
    decide +kernel
  obtain ⟨p, hread, hcomputed⟩ := exists_of_any_toOption hcomputed
  simp only [List.any_eq_true, Bool.and_eq_true, beq_iff_eq, decide_eq_true_eq] at hcomputed
  obtain ⟨⟨node, entry⟩, hentry, ⟨⟨hid, hchildren⟩, hnames⟩, hvalue⟩ := hcomputed
  obtain ⟨hnode, hattribute⟩ := views_agree.2.2.2 _ _ _ hread node entry hentry
  exact ⟨p, node, entry, hread, hentry, hnode, hid, hchildren, hnames,
    (hattribute "n").symm.trans hvalue⟩

end BimEditor
