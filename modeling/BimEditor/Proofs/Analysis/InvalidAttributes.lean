/-
  BimEditor.Proofs.Analysis.InvalidAttributes

  A node is valid if its attributes conform to their schemas, and the attributes that do not are
  reported. The two look at different things: a node has the last value of each name, while every
  member of the attributes is reported that does not conform. So an invalid node always has a
  report inside of its entry, but a report means an invalid node only if some last value of a name
  does not conform either (`isValidNode_eq_false_iff_reported`).
-/
import BimEditor.Analysis.Basic
import BimEditor.Proofs.Document.Entries
import BimEditor.Proofs.Json.KeyedLists
import BimEditor.Proofs.Json.Projection

namespace BimEditor

open BimEditor.Json BimEditor.Text

/-! ## Valid nodes -/

/-- The attributes of a node are the last members of their names. -/
theorem attributes_ofValue (entry : Tree) :
    (Node.ofValue entry.toValue).attributes.getD []
      = Keyed.collect (Tree.memberValues (attributeMembers entry)) := by
  show ((entry.toValue.member? "attributes").bind Value.members?).getD [] = _
  rw [← Tree.get?_toValue, attributeMembers]
  cases entry.get? "attributes" with
  | none => rfl
  | some a =>
    rw [Option.map_some, Option.bind_some, Option.bind_some, Tree.members?_toValue]
    cases a.members? <;> rfl

variable {limits : Limits} {text : List Char} {p : ParsedDocument} {node : Node} {entry : Tree}

/-- An identified node is invalid if the last member of some name does not conform. -/
theorem isValidNode_eq_false_iff (p : ParsedDocument)
    (hid : (Node.ofValue entry.toValue).isIdentified = true) :
    p.document.isValidNode (Node.ofValue entry.toValue) = false
      ↔ ∃ m, IsLast (attributeMembers entry) m ∧ p.conforms? m = some false := by
  have hfails : ∀ x : Option Bool, ¬ x.getD true = true ↔ x = some false := by
    rintro (_ | _ | _) <;> decide
  rw [Document.isValidNode, hid, Bool.true_and, attributes_ofValue, List.all_eq_false]
  constructor
  · rintro ⟨⟨name, v⟩, hmem, hvalue⟩
    obtain ⟨m, hlast, rfl, rfl⟩ := mem_collect_memberValues.1 hmem
    exact ⟨m, hlast, (hfails _).1 hvalue⟩
  · rintro ⟨m, hlast, hconforms⟩
    exact ⟨_, mem_collect_memberValues.2 ⟨m, hlast, rfl, rfl⟩, (hfails _).2 hconforms⟩

/-! ## Reported attributes -/

theorem mem_keys_of_attributeMembers {m : Key × Tree} (h : m ∈ attributeMembers entry) :
    m.1 ∈ entry.keys := by
  rw [attributeMembers] at h
  cases hmembers : (entry.get? "attributes").bind Tree.members? with
  | none =>
    rw [hmembers] at h
    cases h
  | some ms =>
    rw [hmembers, Option.getD_some] at h
    obtain ⟨a, ha, hms⟩ := Option.bind_eq_some_iff.1 hmembers
    exact Tree.mem_keys_of_get? ha (Tree.mem_keys_of_members? hms h)

theorem mem_invalidAttributes_iff {i : InvalidAttribute} :
    i ∈ p.invalidAttributes
      ↔ ∃ node entry m, (node, entry) ∈ p.entries ∧ m ∈ attributeMembers entry
          ∧ p.conforms? m = some false ∧ i = ⟨node.identifier, m.1.name, m.1.content⟩ := by
  simp only [ParsedDocument.invalidAttributes, List.mem_flatMap, List.mem_map, List.mem_filter,
    beq_iff_eq]
  constructor
  · rintro ⟨⟨node, entry⟩, hentry, m, ⟨hm, hconforms⟩, rfl⟩
    exact ⟨node, entry, m, hentry, hm, hconforms, rfl⟩
  · rintro ⟨node, entry, m, hentry, hm, hconforms, rfl⟩
    exact ⟨(node, entry), hentry, m, ⟨hm, hconforms⟩, rfl⟩

/-- An attribute is reported inside of an entry if some member of its attributes does not
    conform. -/
theorem reported_iff (h : ParsedDocument.read limits text = .ok p) (hentry : entry ∈ p.dataItems) :
    (∃ i ∈ p.invalidAttributes, i.span.Inside entry.span)
      ↔ ∃ m ∈ attributeMembers entry, p.conforms? m = some false := by
  constructor
  · rintro ⟨i, hi, hinside⟩
    obtain ⟨node, other, m, hother, hm, hconforms, rfl⟩ := mem_invalidAttributes_iff.1 hi
    obtain ⟨hother, -⟩ := (ParsedDocument.mem_entries_iff h).1 hother
    -- the place of the key tells that it belongs to this entry
    have hkey := mem_keys_of_attributeMembers hm
    obtain rfl := (ParsedDocument.content_inside_iff h hentry hother hkey).1 hinside
    exact ⟨m, hm, hconforms⟩
  · rintro ⟨m, hm, hconforms⟩
    have hmem := (ParsedDocument.mem_entries_iff h).2 ⟨hentry, rfl⟩
    have hkey := mem_keys_of_attributeMembers hm
    exact ⟨_, mem_invalidAttributes_iff.2 ⟨_, _, m, hmem, hm, hconforms, rfl⟩,
      (ParsedDocument.content_inside_iff h hentry hentry hkey).2 rfl⟩

/-! ## Both together -/

/-- For an identified node of a document that was read, being invalid is having an attribute
    reported inside of its entry if and only if, with any member of its attributes that does not
    conform, there is one that does not conform and is the last of its name. -/
theorem isValidNode_eq_false_iff_reported (hread : ParsedDocument.read limits text = .ok p)
    (hentry : (node, entry) ∈ p.entries) (hid : node.isIdentified = true) :
    (p.document.isValidNode node = false
        ↔ ∃ i ∈ p.invalidAttributes, i.span.Inside entry.span)
      ↔ ((∃ m ∈ attributeMembers entry, p.conforms? m = some false) →
        ∃ m, IsLast (attributeMembers entry) m ∧ p.conforms? m = some false) := by
  obtain ⟨hitem, rfl⟩ := (ParsedDocument.mem_entries_iff hread).1 hentry
  rw [isValidNode_eq_false_iff p hid, reported_iff hread hitem]
  constructor
  · exact fun h => h.2
  · refine fun h => ⟨?_, h⟩
    rintro ⟨m, hlast, hconforms⟩
    exact ⟨m, hlast.mem, hconforms⟩

/-- A document with an attribute of the type `Integer`, which one node has twice: first as a string,
    then as a number. -/
def overridden : List Char :=
  "\x7b\"header\":\x7b\"version\":\"1\",\"author\":\"a\",\"timestamp\":\"t\"\x7d,".toList
    ++ "\"schemas\":\x7b\"n\":\x7b\"value\":\x7b\"dataType\":\"Integer\"\x7d\x7d\x7d,".toList
    ++ "\"data\":[\x7b\"identifier\":\"a\",".toList
    ++ "\"attributes\":\x7b\"n\":\"x\",\"n\":1\x7d\x7d]\x7d".toList

/-- Its node is valid, and yet an attribute is reported inside of the node's entry. -/
theorem exists_valid_and_reported :
    ∃ p node entry, ParsedDocument.read .standard overridden = .ok p ∧ (node, entry) ∈ p.entries
      ∧ node.isIdentified = true ∧ p.document.isValidNode node = true
      ∧ ∃ i ∈ p.invalidAttributes, i.span.Inside entry.span := by
  have hcomputed : ((ParsedDocument.read .standard overridden).toOption.any fun p =>
      p.entries.any fun e =>
        e.1.isIdentified && p.document.isValidNode e.1
          && p.invalidAttributes.any fun i => decide (i.span.Inside e.2.span)) = true := by
    decide +kernel
  obtain ⟨p, hread, hcomputed⟩ := exists_of_any_toOption hcomputed
  simp only [List.any_eq_true, Bool.and_eq_true, decide_eq_true_eq] at hcomputed
  obtain ⟨⟨node, entry⟩, hentry, ⟨hid, hvalid⟩, hreported⟩ := hcomputed
  exact ⟨p, node, entry, hread, hentry, hid, hvalid, hreported⟩

/-- Of the two values of the name, the first does not conform and the last does. -/
theorem isValidNode_eq_false_iff_reported_overridden :
    ∃ p node entry, ParsedDocument.read .standard overridden = .ok p ∧ (node, entry) ∈ p.entries
      ∧ node.isIdentified = true ∧ (∃ m ∈ attributeMembers entry, p.conforms? m = some false)
      ∧ ¬ ∃ m, IsLast (attributeMembers entry) m ∧ p.conforms? m = some false := by
  obtain ⟨p, node, entry, hread, hentry, hid, hvalid, hreported⟩ := exists_valid_and_reported
  have hdiffer : ¬ (p.document.isValidNode node = false
      ↔ ∃ i ∈ p.invalidAttributes, i.span.Inside entry.span) := by
    intro hsame
    rw [hsame.2 hreported] at hvalid
    cases hvalid
  have hcause := mt (isValidNode_eq_false_iff_reported hread hentry hid).2 hdiffer
  exact ⟨p, node, entry, hread, hentry, hid, Classical.not_imp.1 hcause⟩

/-- A report inside of the entry of an identified node does not mean that the node is invalid. -/
theorem not_forall_isValidNode_eq_false_iff :
    ¬ ∀ text p node entry, ParsedDocument.read .standard text = .ok p →
      (node, entry) ∈ p.entries → node.isIdentified = true →
      (p.document.isValidNode node = false
        ↔ ∃ i ∈ p.invalidAttributes, i.span.Inside entry.span) := by
  intro hall
  obtain ⟨p, node, entry, hread, hentry, hid, hvalid, hreported⟩ := exists_valid_and_reported
  rw [(hall overridden p node entry hread hentry hid).2 hreported] at hvalid
  cases hvalid

end BimEditor
