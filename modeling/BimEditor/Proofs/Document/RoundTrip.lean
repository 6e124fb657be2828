/-
  BimEditor.Proofs.Document.RoundTrip

  Documents that are written and read back. The compact text of a document is read as the document
  itself, but for types that are known by their tag only, although it is that of a known type: these
  are resolved (`read_text`). Writing the document that was read gives the same text.
-/
import BimEditor.Document.Reader
import BimEditor.Proofs.Json.Projection
import BimEditor.Proofs.Schema.RoundTrip

namespace BimEditor

open BimEditor.Json BimEditor.Text

/-! ## Entries -/

theorem get?_eq_lookup {α : Type} (name : String) (entries : Keyed α) :
    entries.get? name = entries.lookup name := by
  induction entries with
  | nil => rfl
  | cons entry rest ih =>
    rw [Keyed.get?, List.find?_cons, List.lookup_cons, BEq.comm]
    cases name == entry.1 with
    | true => rfl
    | false => exact ih

/-- The type of an entry of the schema table is read back with its tags resolved. -/
theorem Schema.ofValue_toValue (t : TypeDescription) :
    Schema.ofValue (Schema.toValue t) = t.resolved := by
  obtain ⟨field, hrecord, hfield⟩ := record?_object ["value"] [("value", t.toValue)]
  have hread : Schema.ofValue? (Schema.toValue t) = some t.resolved := by
    rw [Schema.ofValue?, Schema.toValue, hrecord]
    exact required_present (fun _ => t.ofValue?_toValue) _ (hfield "value")
  rw [Schema.ofValue, hread]
  rfl

theorem Inherits.ofValue?_toValue (i : Inherits) : Inherits.ofValue? i.toValue = some i := by
  cases i <;> rfl

/-- The members of a node that was written. -/
theorem Node.member?_toValue (n : Node) :
    n.toValue.member? "identifier" = some (.string n.identifier)
      ∧ n.toValue.member? "children" = n.children.map .object
      ∧ n.toValue.member? "inherits" = n.inherits.map Inherits.toValue
      ∧ n.toValue.member? "attributes" = n.attributes.map .object := by
  simp only [Node.toValue, Value.member?, Value.members?, Option.bind_some, get?_eq_lookup,
    List.lookup_append, List.lookup_cons, lookup_optionalMember]
  simp

/-- A node is read back. -/
theorem Node.ofValue_toValue (n : Node) : Node.ofValue n.toValue = n := by
  obtain ⟨hidentifier, hchildren, hinherits, hattributes⟩ := n.member?_toValue
  have hmembers : ∀ o : Option (Keyed Value), (o.map Value.object).bind Value.members? = o := by
    intro o
    cases o <;> rfl
  -- both forms of inheritance are told apart by the kind of their value
  have hinherited : ∀ o : Option Inherits, (o.map Inherits.toValue).bind Inherits.ofValue? = o := by
    intro o
    cases o with
    | none => rfl
    | some i => exact i.ofValue?_toValue
  rw [Node.ofValue, hidentifier, hchildren, hinherits, hattributes, hmembers, hmembers, hinherited]
  rfl

/-! ## Distinct names -/

/-- Every map of a node has one entry for each name, at any depth. -/
structure Node.Distinct (n : Node) : Prop where
  children : ∀ entries ∈ n.children, (Value.object entries).Distinct
  inherits : ∀ i ∈ n.inherits, i.toValue.Distinct
  attributes : ∀ entries ∈ n.attributes, (Value.object entries).Distinct

theorem Node.distinct_toValue {n : Node} (h : n.Distinct) : n.toValue.Distinct := by
  refine ⟨?_, Value.membersDistinct_iff.2 ?_⟩
  · have hsublist := ((Value.names_optionalMember_sublist "children"
      (n.children.map .object)).append (Value.names_optionalMember_sublist "inherits"
      (n.inherits.map Inherits.toValue))).append (Value.names_optionalMember_sublist
      "attributes" (n.attributes.map .object))
    have hnames := hsublist.cons_cons "identifier"
    rw [Keyed.names, Keyed.names, Keyed.names, ← List.map_append, ← List.map_append] at hnames
    exact List.Nodup.sublist hnames (by decide)
  · have hmap : ∀ o : Option (Keyed Value), (∀ entries ∈ o, (Value.object entries).Distinct) →
        ∀ w ∈ o.map Value.object, w.Distinct := by
      intro o ho w hw
      obtain ⟨entries, hentries, rfl⟩ := Option.map_eq_some_iff.1 hw
      exact ho entries hentries
    have hinherits : ∀ w ∈ n.inherits.map Inherits.toValue, w.Distinct := by
      intro w hw
      obtain ⟨i, hi, rfl⟩ := Option.map_eq_some_iff.1 hw
      exact h.inherits i hi
    intro m hm
    rcases List.mem_cons.1 hm with rfl | hm
    · exact trivial
    rcases List.mem_append.1 hm with hm | hm
    · rcases List.mem_append.1 hm with hm | hm
      · exact Value.distinct_of_mem_optionalMember (hmap _ h.children) hm
      · exact Value.distinct_of_mem_optionalMember hinherits hm
    · exact Value.distinct_of_mem_optionalMember (hmap _ h.attributes) hm

namespace Document

/-- All types of the schema table, with the types inside of them. -/
def types (d : Document) : List TypeDescription :=
  d.schemas.flatMap fun entry => entry.2.parts

/-- Every map of a document has one entry for each name: the table of schemas, the members of object
    types, and the maps of nodes. -/
structure Distinct (d : Document) : Prop where
  schemas : (Keyed.names d.schemas).Nodup
  types : ∀ entry ∈ d.schemas, entry.2.Distinct
  nodes : ∀ n ∈ d.data, n.Distinct

theorem distinct_toValue {d : Document} (h : d.Distinct) : d.toValue.Distinct := by
  have houter : ["header", "schemas", "data"].Nodup := by decide
  have hheader : ["version", "author", "timestamp"].Nodup := by decide
  refine ⟨houter, ⟨hheader, trivial, trivial, trivial, trivial⟩, ⟨?_, ?_⟩, ?_, trivial⟩
  · have hnames : Keyed.names (d.schemas.map fun entry => (entry.1, Schema.toValue entry.2))
        = Keyed.names d.schemas := by
      rw [Keyed.names, List.map_map]
      rfl
    exact hnames ▸ h.schemas
  · refine Value.membersDistinct_iff.2 ?_
    intro m hm
    obtain ⟨entry, hentry, rfl⟩ := List.mem_map.1 hm
    exact Value.distinct_singleton (entry.2.distinct_toValue (h.types entry hentry))
  · refine Value.itemsDistinct_iff.2 ?_
    intro v hv
    obtain ⟨n, hn, rfl⟩ := List.mem_map.1 hv
    exact Node.distinct_toValue (h.nodes n hn)

/-! ## Resolved documents -/

/-- The document with every tag of a known type resolved. -/
def resolved (d : Document) : Document :=
  { d with schemas := d.schemas.map fun entry => (entry.1, entry.2.resolved) }

theorem resolved_eq_self {d : Document} (h : ∀ t ∈ d.types, ¬ t.IsMistagged) :
    d.resolved = d := by
  have hentry : ∀ entry ∈ d.schemas, (entry.1, entry.2.resolved) = entry := by
    intro entry hentry
    rw [entry.2.resolved_eq_self fun t ht => h t (List.mem_flatMap.2 ⟨entry, hentry, ht⟩)]
  have hschemas : d.schemas.map (fun entry => (entry.1, entry.2.resolved)) = d.schemas := by
    conv_rhs => rw [← List.map_id d.schemas]
    exact List.map_congr_left hentry
  rw [resolved, hschemas]

/-- The table of schemas as it is written. -/
def schemaMembers (d : Document) : List (String × Value) :=
  d.schemas.map fun entry => (entry.1, Schema.toValue entry.2)

theorem toValue_eq (d : Document) :
    d.toValue = .object [("header", d.header.toValue), ("schemas", .object d.schemaMembers),
      ("data", .array (d.data.map Node.toValue))] := rfl

theorem text_resolved (d : Document) : d.resolved.text = d.text := by
  have hschemas : d.resolved.schemaMembers = d.schemaMembers := by
    rw [schemaMembers, resolved, List.map_map]
    refine List.map_congr_left ?_
    intro entry _
    simp only [Function.comp_apply, Schema.toValue, TypeDescription.toValue_resolved]
  rw [text, text, toValue_eq, toValue_eq, hschemas]
  rfl

end Document

/-! ## Reading what was written -/

theorem presentMember?_toValue {t : Tree} {name : String} {v : Value}
    (h : t.toValue.member? name = some v) (hv : v.isNull = false) :
    ∃ u, presentMember? name t = some u ∧ u.toValue = v := by
  rw [← Tree.get?_toValue] at h
  obtain ⟨u, hu, rfl⟩ := Option.map_eq_some_iff.1 h
  -- a member that is `null` would count as absent
  rw [Tree.isNull_toValue] at hv
  refine ⟨u, ?_, rfl⟩
  rw [presentMember?, hu, Option.filter_some, if_pos (by rw [hv]; rfl)]

theorem headerField_eq_ok {t : Tree} {field s : String}
    (h : t.toValue.member? field = some (.string s)) (hs : s ≠ "") :
    headerField t field = .ok s := by
  rw [← Tree.get?_toValue] at h
  obtain ⟨u, hu, hvalue⟩ := Option.map_eq_some_iff.1 h
  have hstring : u.string? = some s := by
    rw [← Tree.string?_toValue, hvalue]
    rfl
  -- an empty string would be refused like a missing one
  have hnonempty : s.isEmpty = false := by
    rw [Bool.eq_false_iff]
    intro hempty
    exact hs (String.isEmpty_iff.1 hempty)
  rw [headerField, hu, Option.bind_some, hstring]
  simp [hnonempty]

theorem shapedMember_eq_ok {α : Type} {t u : Tree} {field : String} {shape : Tree → Option α}
    {a : α} (h : presentMember? field t = some u) (ha : shape u = some a) :
    shapedMember t field shape = .ok a := by
  rw [shapedMember, h]
  simp [ha]

/-- The header's strings are all there. -/
def Header.Complete (h : Header) : Prop :=
  h.version ≠ "" ∧ h.author ≠ "" ∧ h.timestamp ≠ ""

theorem headerFields_eq_ok {t : Tree} {header : Header} (h : t.toValue = header.toValue)
    (hcomplete : header.Complete) :
    headerField t "version" = .ok header.version ∧ headerField t "author" = .ok header.author
      ∧ headerField t "timestamp" = .ok header.timestamp := by
  obtain ⟨hversion, hauthor, htimestamp⟩ := hcomplete
  refine ⟨headerField_eq_ok ?_ hversion, headerField_eq_ok ?_ hauthor,
    headerField_eq_ok ?_ htimestamp⟩
  · rw [h]
    rfl
  · rw [h]
    rfl
  · rw [h]
    rfl

/-- The table of schemas is read entry by entry. -/
theorem schemas_of_collected {d : Document} {members : List (Key × Tree)}
    (h : Keyed.collect (Tree.memberValues members) = d.schemaMembers) :
    Keyed.collect (members.map fun m => (m.1.name, Schema.ofValue m.2.toValue))
      = d.resolved.schemas := by
  have hmap := Keyed.collect_map Schema.ofValue (Tree.memberValues members)
  rw [h, Document.schemaMembers, List.map_map, Tree.memberValues_eq_map, List.map_map] at hmap
  refine hmap.trans (List.map_congr_left ?_)
  intro entry _
  exact congrArg (entry.1, ·) (Schema.ofValue_toValue entry.2)

/-- The data is read node by node. -/
theorem data_of_itemValues {d : Document} {items : List Tree}
    (h : Tree.itemValues items = d.data.map Node.toValue) :
    items.map (fun t => Node.ofValue t.toValue) = d.data := by
  have hmap := congrArg (List.map Node.ofValue) h
  rw [Tree.itemValues_eq_map, List.map_map, List.map_map] at hmap
  refine hmap.trans ?_
  conv_rhs => rw [← List.map_id d.data]
  exact List.map_congr_left fun n _ => Node.ofValue_toValue n

/-- A tree whose plain value is a document's holds that document, with its tags resolved. -/
theorem envelope_of_toValue {t : Tree} {d : Document} (hheader : d.header.Complete)
    (h : t.toValue = d.toValue) :
    ∃ e, Envelope.ofTree t = .ok e ∧ e.document = d.resolved := by
  have hobject : t.members?.isNone = false := by
    have hmembers := Tree.members?_toValue t
    rw [h] at hmembers
    cases hm : t.members? with
    | none =>
      rw [hm] at hmembers
      cases hmembers
    | some ms => rfl
  -- the three parts, each with its plain value
  obtain ⟨th, hth, hthvalue⟩ := @presentMember?_toValue t "header" d.header.toValue
    (by rw [h]; rfl) rfl
  obtain ⟨ts, hts, htsvalue⟩ := @presentMember?_toValue t "schemas" (.object d.schemaMembers)
    (by rw [h]; rfl) rfl
  obtain ⟨td, htd, htdvalue⟩ := @presentMember?_toValue t "data"
    (.array (d.data.map Node.toValue)) (by rw [h]; rfl) rfl
  obtain ⟨hversion, hauthor, htimestamp⟩ := headerFields_eq_ok hthvalue hheader
  obtain ⟨schemas, hschemas, hcollected⟩ : ∃ ms, ts.members? = some ms
      ∧ Keyed.collect (Tree.memberValues ms) = d.schemaMembers := by
    have hmembers := Tree.members?_toValue ts
    rw [htsvalue] at hmembers
    exact Option.map_eq_some_iff.1 hmembers.symm
  obtain ⟨data, hdata, hvalues⟩ : ∃ items, td.items? = some items
      ∧ Tree.itemValues items = d.data.map Node.toValue := by
    have hitems := Tree.items?_toValue td
    rw [htdvalue] at hitems
    exact Option.map_eq_some_iff.1 hitems.symm
  refine ⟨⟨d.header, schemas, data⟩, ?_, ?_⟩
  · rw [Envelope.ofTree, hobject, hth, if_neg Bool.false_ne_true]
    simp only [pure_bind, hversion, hauthor, htimestamp, shapedMember_eq_ok hts hschemas,
      shapedMember_eq_ok htd hdata]
    rfl
  · show Document.mk d.header _ _ = d.resolved
    rw [data_of_itemValues hvalues]
    exact congrArg (Document.mk d.header · d.data) (schemas_of_collected hcollected)

/-- The compact text of a document, within the limits, is read as that document with its tags
    resolved. A document without tags to resolve is read as itself, and what was read is written as
    the same text. -/
theorem Document.read_text {limits : Limits} {d : Document} (hheader : d.header.Complete)
    (hdistinct : d.Distinct) (hsize : WithinLimit limits.maxSize (byteLength d.text))
    (hdepth : WithinLimit limits.maxDepth d.toValue.depth) :
    Document.read limits d.text = .ok d.resolved
      ∧ ((∀ t ∈ d.types, ¬ t.IsMistagged) → Document.read limits d.text = .ok d)
      ∧ d.resolved.text = d.text := by
  have hread : Document.read limits d.text = .ok d.resolved := by
    obtain ⟨t, hread, hplain⟩ := read_compact hsize hdepth
    -- no name is repeated, so that the reader loses no member
    have hvalue : t.toValue = d.toValue := by
      rw [← hplain]
      refine t.toValue_of_distinct ?_
      rw [hplain]
      exact d.distinct_toValue hdistinct
    obtain ⟨e, henvelope, hdocument⟩ := envelope_of_toValue hheader hvalue
    rw [Document.read, ParsedDocument.read, text, hread]
    simp only [henvelope]
    rw [← hdocument]
    rfl
  refine ⟨hread, ?_, d.text_resolved⟩
  intro htypes
  rw [hread, resolved_eq_self htypes]

theorem Document.read_text_mistagged :
    Document.read .standard (Document.text ⟨⟨"1", "a", "t"⟩, [("s", .unrecognized {} "Real")],
        [{ identifier := "n", inherits := some (.list [.string "m"]) }]⟩)
      = .ok ⟨⟨"1", "a", "t"⟩, [("s", .primitive {} .real)],
        [{ identifier := "n", inherits := some (.list [.string "m"]) }]⟩ := by
  refine (Document.read_text ⟨by decide, by decide, by decide⟩ ⟨by decide, ?_, ?_⟩ ?_ ?_).1
  · intro entry hentry s hs notes members heq
    obtain rfl := List.mem_singleton.1 hentry
    obtain rfl := List.mem_singleton.1 hs
    cases heq
  · intro n hn
    obtain rfl := List.mem_singleton.1 hn
    refine ⟨nofun, ?_, nofun⟩
    intro i hi
    obtain rfl := Option.some.inj hi
    exact ⟨trivial, trivial⟩
  · intro most hmost
    obtain rfl := Option.some.inj hmost
    decide +kernel
  · intro most hmost
    obtain rfl := Option.some.inj hmost
    decide +kernel

end BimEditor
