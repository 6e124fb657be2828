/-
  BimEditor.Proofs.Document.Acceptance

  Which texts are documents, and what is said of those that are none. The envelope is described
  without its reader, as a shape of trees (`IsDocument`): a tree is read as a document if and only
  if it has that shape (`isDocument_iff_ofTree`), whatever its schemas and nodes hold. A text that
  is no JSON is refused for what is wrong with the JSON, and any other for its shape; and the header
  that was checked in the tree is also what the strict reader of headers makes of its plain value
  (`ParsedDocument.read_iff_isDocument`).
-/
import BimEditor.Proofs.Analysis.InvalidAttributes
import BimEditor.Proofs.Document.RoundTrip

namespace BimEditor

open BimEditor.Json BimEditor.Text

/-! ## The shape of a document -/

/-- The tree is an object, and the last of its members of that name holds `v`. -/
def Json.Tree.Holds (t : Tree) (name : String) (v : Tree) : Prop :=
  ∃ span members key, t = .object span members ∧ IsLast members (key, v) ∧ key.name = name

/-- The fields that every header has. -/
def Header.fields : List String :=
  ["version", "author", "timestamp"]

/-- The tree has the parts that make it a document: a header with a string other than the empty one
    in each of its fields, an object of schemas and an array of data. -/
structure Json.Tree.IsDocument (t : Tree) : Prop where
  header : ∃ h, t.Holds "header" h ∧ ∀ field ∈ Header.fields, ∃ span s,
    h.Holds field (.leaf span (.string s)) ∧ s ≠ ""
  schemas : ∃ span members, t.Holds "schemas" (.object span members)
  data : ∃ span items, t.Holds "data" (.array span items)

/-- Of several members of one name, the last one is looked up. -/
theorem holds_iff_get? {t v : Tree} {name : String} : t.Holds name v ↔ t.get? name = some v := by
  constructor
  · rintro ⟨span, members, key, rfl, hlast, rfl⟩
    have hfind := isLast_iff_find?.1 hlast
    rw [Tree.get?, Tree.entry?, Tree.members?, Option.bind_some, hfind]
    rfl
  · intro h
    obtain ⟨⟨key, u⟩, hentry, rfl⟩ := Option.map_eq_some_iff.1 h
    obtain ⟨members, hmembers, hfind⟩ := Option.bind_eq_some_iff.1 hentry
    obtain ⟨span, rfl⟩ := Tree.eq_object_of_members? hmembers
    have hname : key.name = name := by simpa using List.find?_some hfind
    subst hname
    exact ⟨span, members, key, rfl, isLast_iff_find?.2 hfind, rfl⟩

theorem eq_leaf_of_string? {t : Tree} {s : String} (h : t.string? = some s) :
    ∃ span, t = .leaf span (.string s) := by
  cases t with
  | leaf span x =>
    cases x with
    | string s' =>
      obtain rfl := Option.some.inj h
      exact ⟨span, rfl⟩
    | null => cases h
    | bool b => cases h
    | number n => cases h
  | array span items => cases h
  | object span members => cases h

/-! ## Reading the envelope -/

/-- A field of the header is read if it holds a string other than the empty one. -/
theorem headerField_eq_ok_iff {h : Tree} {field s : String} :
    headerField h field = .ok s ↔ (∃ span, h.Holds field (.leaf span (.string s))) ∧ s ≠ "" := by
  simp only [holds_iff_get?]
  constructor
  · intro hok
    rw [headerField] at hok
    split at hok
    · next s' hs =>
      split at hok
      · cases hok
      · next hempty =>
        obtain rfl := Except.ok.inj hok
        obtain ⟨u, hu, hstring⟩ := Option.bind_eq_some_iff.1 hs
        obtain ⟨span, rfl⟩ := eq_leaf_of_string? hstring
        refine ⟨⟨span, hu⟩, ?_⟩
        rintro rfl
        exact hempty rfl
    · cases hok
  · rintro ⟨⟨span, hu⟩, hs⟩
    refine headerField_eq_ok ?_ hs
    rw [← Tree.get?_toValue, hu]
    rfl

/-- A member of the right shape is read, since `null` has neither of the two shapes. -/
theorem shapedMember_of_get? {α : Type} {t u : Tree} {field : String} {shape : Tree → Option α}
    {a : α} (hu : t.get? field = some u) (hnull : u.isNull = false) (ha : shape u = some a) :
    shapedMember t field shape = .ok a := by
  apply shapedMember_eq_ok _ ha
  rw [presentMember?, hu, Option.filter_some, hnull]
  rfl

/-- A header is read field by field. -/
theorem Envelope.header_of_ofTree {t : Tree} {e : Envelope} (h : Envelope.ofTree t = .ok e) :
    ∃ u, t.get? "header" = some u ∧ headerField u "version" = .ok e.header.version
      ∧ headerField u "author" = .ok e.header.author
      ∧ headerField u "timestamp" = .ok e.header.timestamp := by
  unfold Envelope.ofTree at h
  dsimp only at h
  split at h
  · cases h
  split at h
  case h_2 => cases h
  next u hu =>
  obtain ⟨header, hheader, h⟩ := bind_eq_ok h
  obtain rfl := Except.ok.inj hheader
  obtain ⟨version, hversion, h⟩ := bind_eq_ok h
  obtain ⟨author, hauthor, h⟩ := bind_eq_ok h
  obtain ⟨timestamp, htimestamp, h⟩ := bind_eq_ok h
  obtain ⟨schemas, -, h⟩ := bind_eq_ok h
  obtain ⟨data, -, h⟩ := bind_eq_ok h
  obtain rfl := Except.ok.inj h
  exact ⟨u, (Option.filter_eq_some_iff.1 hu).1, hversion, hauthor, htimestamp⟩

/-- A tree is read as the envelope of a document if and only if it has the shape of one. -/
theorem isDocument_iff_ofTree {t : Tree} :
    t.IsDocument ↔ ∃ e, Envelope.ofTree t = .ok e := by
  constructor
  · rintro ⟨⟨h, hheader, hfields⟩, ⟨span, schemas, hschemas⟩, ⟨span', data, hdata⟩⟩
    have hfield : ∀ field ∈ Header.fields, ∃ s, headerField h field = .ok s := by
      intro field hfield
      obtain ⟨span, s, hs, hne⟩ := hfields field hfield
      exact ⟨s, headerField_eq_ok_iff.2 ⟨⟨span, hs⟩, hne⟩⟩
    obtain ⟨version, hversion⟩ := hfield "version" (by decide)
    obtain ⟨author, hauthor⟩ := hfield "author" (by decide)
    obtain ⟨timestamp, htimestamp⟩ := hfield "timestamp" (by decide)
    -- the root holds something, so it is an object; the header does, so it is not `null`
    have hroot : t.members?.isNone = false := by
      obtain ⟨_, _, _, rfl, -⟩ := hheader
      rfl
    have hpresent : presentMember? "header" t = some h := by
      obtain ⟨_, _, hversion', -⟩ := hfields "version" (by decide)
      obtain ⟨_, _, _, rfl, -⟩ := hversion'
      rw [presentMember?, holds_iff_get?.1 hheader]
      rfl
    have hschemas' : shapedMember t "schemas" Tree.members? = .ok schemas :=
      shapedMember_of_get? (holds_iff_get?.1 hschemas) rfl rfl
    have hdata' : shapedMember t "data" Tree.items? = .ok data :=
      shapedMember_of_get? (holds_iff_get?.1 hdata) rfl rfl
    refine ⟨⟨⟨version, author, timestamp⟩, schemas, data⟩, ?_⟩
    rw [Envelope.ofTree, hroot, hpresent, if_neg Bool.false_ne_true]
    simp only [pure_bind, hversion, hauthor, htimestamp, hschemas', hdata']
    rfl
  · rintro ⟨e, he⟩
    obtain ⟨h, hheader, hversion, hauthor, htimestamp⟩ := Envelope.header_of_ofTree he
    obtain ⟨⟨u, hu, hmembers⟩, ⟨w, hw, hitems⟩⟩ := Envelope.parts_of_ofTree he
    obtain ⟨span, rfl⟩ := Tree.eq_object_of_members? hmembers
    obtain ⟨span', rfl⟩ := Tree.eq_array_of_items? hitems
    refine ⟨⟨h, holds_iff_get?.2 hheader, ?_⟩, ⟨span, _, holds_iff_get?.2 hu⟩,
      ⟨span', _, holds_iff_get?.2 hw⟩⟩
    -- the three fields of a header, one by one
    have hheld : ∀ {field s : String}, headerField h field = .ok s →
        ∃ span s, h.Holds field (.leaf span (.string s)) ∧ s ≠ "" := by
      intro field s hok
      obtain ⟨⟨span, hs⟩, hne⟩ := headerField_eq_ok_iff.1 hok
      exact ⟨span, s, hs, hne⟩
    intro field hfield
    simp only [Header.fields, List.mem_cons, List.not_mem_nil, or_false] at hfield
    rcases hfield with rfl | rfl | rfl
    · exact hheld hversion
    · exact hheld hauthor
    · exact hheld htimestamp

/-! ## What is wrong with an envelope -/

/-- If it fails, then for the shape of the tree. -/
def Misshapes {α : Type} (x : Except Problem α) : Prop :=
  ∀ problem, x = .error problem → problem.kind = .misshapen

theorem misshapes_ok {α : Type} (a : α) : Misshapes (.ok a) := by
  intro problem h
  cases h

theorem misshapes_misfit {α : Type} (t : Tree) (cause : Misfit) :
    Misshapes (.error (misfit t cause) : Except Problem α) := by
  intro problem h
  obtain rfl := Except.error.inj h
  rfl

theorem Misshapes.bind {α β : Type} {x : Except Problem α} {f : α → Except Problem β}
    (hx : Misshapes x) (hf : ∀ a, Misshapes (f a)) : Misshapes (x >>= f) := by
  cases x with
  | ok a => exact hf a
  | error e =>
    intro problem h
    obtain rfl := Except.error.inj h
    exact hx e rfl

theorem misshapes_headerField (h : Tree) (field : String) : Misshapes (headerField h field) := by
  unfold headerField
  split
  · split
    · exact misshapes_misfit _ _
    · exact misshapes_ok _
  · exact misshapes_misfit _ _

theorem misshapes_shapedMember {α : Type} (t : Tree) (field : String) (shape : Tree → Option α) :
    Misshapes (shapedMember t field shape) := by
  unfold shapedMember
  split
  · exact misshapes_misfit _ _
  · split
    · exact misshapes_misfit _ _
    · exact misshapes_ok _

/-- Every step of reading an envelope fails for the shape of the tree only. -/
theorem misshapes_ofTree (t : Tree) : Misshapes (Envelope.ofTree t) := by
  -- what is read of a header that is there
  have hparts : ∀ header : Tree, Misshapes (do
      let version ← headerField header "version"
      let author ← headerField header "author"
      let timestamp ← headerField header "timestamp"
      let schemas ← shapedMember t "schemas" Tree.members?
      let data ← shapedMember t "data" Tree.items?
      return (⟨⟨version, author, timestamp⟩, schemas, data⟩ : Envelope)) := by
    intro header
    refine (misshapes_headerField header "version").bind fun version => ?_
    refine (misshapes_headerField header "author").bind fun author => ?_
    refine (misshapes_headerField header "timestamp").bind fun timestamp => ?_
    refine (misshapes_shapedMember t "schemas" Tree.members?).bind fun schemas => ?_
    refine (misshapes_shapedMember t "data" Tree.items?).bind fun data => ?_
    exact misshapes_ok _
  unfold Envelope.ofTree
  dsimp only
  split
  · exact misshapes_misfit t .notAnObject
  split
  · exact hparts _
  · exact misshapes_misfit t .missingHeader

/-! ## The header as a plain value -/

/-- A header that was checked field by field in the tree is read as a record of its plain value,
    where a repeated name has been given its last value. -/
theorem Header.ofValue?_of_headerFields {u : Tree} {header : Header}
    (hversion : headerField u "version" = .ok header.version)
    (hauthor : headerField u "author" = .ok header.author)
    (htimestamp : headerField u "timestamp" = .ok header.timestamp) :
    Header.ofValue? u.toValue = some header := by
  have hmember : ∀ {field s : String}, headerField u field = .ok s →
      u.toValue.member? field = some (.string s) := by
    intro field s hok
    obtain ⟨⟨span, hs⟩, -⟩ := headerField_eq_ok_iff.1 hok
    rw [← Tree.get?_toValue, holds_iff_get?.1 hs]
    rfl
  -- only an object has fields at all
  obtain ⟨members, hmembers⟩ : ∃ members, u.toValue = .object members := by
    obtain ⟨⟨span, hs⟩, -⟩ := headerField_eq_ok_iff.1 hversion
    obtain ⟨_, _, _, rfl, -⟩ := hs
    exact ⟨_, rfl⟩
  have hlookup : ∀ {field s : String}, headerField u field = .ok s →
      members.lookup field = some (.string s) := by
    intro field s hok
    have hm := hmember hok
    rwa [hmembers, Value.member?, Value.members?, Option.bind_some, get?_eq_lookup] at hm
  obtain ⟨field, hrecord, hfield⟩ := record?_object ["version", "author", "timestamp"] members
  have hread : ∀ {name s : String}, headerField u name = .ok s →
      required (field name) readString = some s := by
    intro name s hok
    exact required_present (fun _ => rfl) _ ((hfield name).trans (hlookup hok))
  rw [Header.ofValue?, hmembers, hrecord]
  show (do
    let version ← required (field "version") readString
    let author ← required (field "author") readString
    let timestamp ← required (field "timestamp") readString
    return (⟨version, author, timestamp⟩ : Header)) = some header
  rw [hread hversion, hread hauthor, hread htimestamp]
  rfl

/-! ## Reading a text as a document -/

namespace ParsedDocument

theorem read_of_fault {limits : Limits} {text : List Char} {fault : Fault}
    (h : Json.read limits text = .error fault) :
    ParsedDocument.read limits text = .error (.unreadable fault) := by
  rw [ParsedDocument.read, h]

/-- A text that holds a tree is read as far as the tree's envelope is. -/
theorem read_of_tree {limits : Limits} {text : List Char} {t : Tree}
    (h : Json.read limits text = .ok t) :
    ParsedDocument.read limits text
      = (Envelope.ofTree t >>= fun e => .ok ⟨e.document, t⟩) := by
  rw [ParsedDocument.read, h]
  rfl

/-- A text is read as a document if and only if it is JSON of the shape of a document. What is no
    JSON is refused with the fault of the JSON, and what is JSON of another shape as misshapen. A
    header that passes the check is also read from its plain value, as the header of the document;
    and every item of the data, in order, goes with the node that is read from it. -/
theorem read_iff_isDocument (limits : Limits) (text : List Char) :
    ((∃ p, ParsedDocument.read limits text = .ok p)
        ↔ ∃ t, Json.read limits text = .ok t ∧ t.IsDocument)
      ∧ (∀ fault, Json.read limits text = .error fault →
        ParsedDocument.read limits text = .error (.unreadable fault))
      ∧ (∀ t problem, Json.read limits text = .ok t →
        ParsedDocument.read limits text = .error problem → problem.kind = .misshapen)
      ∧ ∀ p, ParsedDocument.read limits text = .ok p →
        Json.read limits text = .ok p.tree
          ∧ (∃ h, p.tree.Holds "header" h ∧ Header.ofValue? h.toValue = some p.document.header)
          ∧ ∃ span items, p.tree.Holds "data" (.array span items)
            ∧ p.entries = items.map fun t => (Node.ofValue t.toValue, t) := by
  refine ⟨⟨?_, ?_⟩, fun fault => read_of_fault, ?_, ?_⟩
  · rintro ⟨p, hp⟩
    obtain ⟨htree, e, he, -⟩ := of_read hp
    exact ⟨p.tree, htree, isDocument_iff_ofTree.2 ⟨e, he⟩⟩
  · rintro ⟨t, ht, hdocument⟩
    obtain ⟨e, he⟩ := isDocument_iff_ofTree.1 hdocument
    refine ⟨⟨e.document, t⟩, ?_⟩
    rw [read_of_tree ht, he]
    rfl
  · intro t problem ht hproblem
    rw [read_of_tree ht] at hproblem
    exact (misshapes_ofTree t).bind (fun e => misshapes_ok _) problem hproblem
  · intro p hp
    obtain ⟨htree, e, he, hdocument⟩ := of_read hp
    obtain ⟨h, hheader, hversion, hauthor, htimestamp⟩ := Envelope.header_of_ofTree he
    obtain ⟨u, hu, hitems, -⟩ := data_of_read hp
    obtain ⟨span, rfl⟩ := Tree.eq_array_of_items? hitems
    refine ⟨htree, ⟨h, holds_iff_get?.2 hheader, ?_⟩, span, p.dataItems, holds_iff_get?.2 hu,
      entries_eq_map hp⟩
    rw [hdocument]
    exact Header.ofValue?_of_headerFields hversion hauthor htimestamp

/-- A document that repeats its header and a field of it, with a schema and two nodes of the wrong
    shape. -/
def lenient : List Char :=
  "\x7b\"header\":null,\"data\":[null,\x7b\"identifier\":1\x7d],".toList
    ++ "\"header\":\x7b\"version\":1,\"version\":\"1\",\"author\":\"a\",".toList
    ++ "\"timestamp\":\"t\"\x7d,\"schemas\":\x7b\"s\":[]\x7d\x7d".toList

theorem read_iff_isDocument_lenient :
    ∃ p, ParsedDocument.read .standard lenient = .ok p ∧ p.document.header = ⟨"1", "a", "t"⟩
      ∧ Json.read .standard lenient = .ok p.tree ∧ p.tree.IsDocument
      ∧ ∃ span items, p.tree.Holds "data" (.array span items) ∧ items.length = 2
        ∧ p.entries = items.map fun t => (Node.ofValue t.toValue, t) := by
  have hcomputed : ((ParsedDocument.read .standard lenient).toOption.any fun p =>
      decide (p.document.header = ⟨"1", "a", "t"⟩ ∧ p.entries.length = 2)) = true := by
    decide +kernel
  obtain ⟨p, hread, hcomputed⟩ := exists_of_any_toOption hcomputed
  obtain ⟨hheader, hlength⟩ := of_decide_eq_true hcomputed
  obtain ⟨haccept, -, -, hparts⟩ := read_iff_isDocument .standard lenient
  obtain ⟨htree, -, span, items, hdata, hentries⟩ := hparts p hread
  obtain ⟨t, ht, hdocument⟩ := haccept.1 ⟨p, hread⟩
  obtain rfl := Except.ok.inj (htree.symm.trans ht)
  refine ⟨p, hread, hheader, htree, hdocument, span, items, hdata, ?_, hentries⟩
  rw [hentries, List.length_map] at hlength
  exact hlength

end ParsedDocument

end BimEditor
