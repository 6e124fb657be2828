/-
  BimEditor.Proofs.Analysis.AttributeVerdicts

  Two places tell whether an attribute conforms to its schema: the tooltip on its key, which looks
  for the key among all entries and then checks the value, and the list of attributes that do not
  conform, which is made for all entries at once. They never contradict each other
  (`attributeConforms?_iff_reported`): the place of a key belongs to one attribute of one entry
  (`attribute_eq_of_content_eq`), and a key that is marked as the use of a schema has a schema.
-/
import BimEditor.Analysis.Hover
import BimEditor.Proofs.Analysis.InvalidAttributes
import BimEditor.Proofs.Analysis.MarkedTokens
import BimEditor.Proofs.Analysis.OfText

namespace BimEditor

open BimEditor.Json BimEditor.Text

variable {limits : Limits} {text : List Char} {p : ParsedDocument}

/-! ## The place of an attribute -/

theorem attributeTokens_sublist (entry : Tree) :
    ((attributeMembers entry).map fun m => m.1.token).Sublist entry.strings :=
  Tree.memberTokens_sublist entry "attributes"

/-- The key of an attribute is a string of the document. -/
theorem attributeToken_mem (h : ParsedDocument.read limits text = .ok p) {entry : Tree}
    (hentry : entry ∈ p.dataItems) {m : Key × Tree} (hm : m ∈ attributeMembers entry) :
    m.1.token ∈ p.tree.strings := by
  have hsublist := (attributeTokens_sublist entry).trans (p.entryStrings_sublist h hentry)
  exact hsublist.subset (List.mem_map_of_mem hm)

/-- No two attributes of an entry have their keys at one place. -/
theorem attributes_pairwise (h : ParsedDocument.read limits text = .ok p) {entry : Tree}
    (hentry : entry ∈ p.dataItems) :
    (attributeMembers entry).Pairwise fun m n => m.1.content ≠ n.1.content := by
  have hsublist := (attributeTokens_sublist entry).trans (p.entryStrings_sublist h hentry)
  have hspans := nodup_spans_of_read (ParsedDocument.of_read h).1
  have hnodup := hspans.sublist (hsublist.map (·.span))
  rw [List.map_map, List.Nodup, List.pairwise_map] at hnodup
  exact hnodup

/-- The place of its key tells which attribute of which entry it is. -/
theorem attribute_eq_of_content_eq (h : ParsedDocument.read limits text = .ok p)
    {entry other : Tree} (hentry : entry ∈ p.dataItems) (hother : other ∈ p.dataItems)
    {m n : Key × Tree} (hm : m ∈ attributeMembers entry) (hn : n ∈ attributeMembers other)
    (hcontent : m.1.content = n.1.content) : m = n := by
  have hinside : m.1.content.Inside entry.span :=
    (p.content_inside_iff h hentry hentry (mem_keys_of_attributeMembers hm)).2 rfl
  rw [hcontent] at hinside
  obtain rfl := (p.content_inside_iff h hentry hother (mem_keys_of_attributeMembers hn)).1 hinside
  rcases eq_or_rel_of_pairwise (attributes_pairwise h hother) hm hn with heq | hne | hne
  · exact heq
  · exact absurd hcontent hne
  · exact absurd hcontent.symm hne

/-! ## The verdict on an attribute -/

/-- The verdict at a place is that on the attribute which has its key there. -/
theorem attributeConforms?_eq_some_iff (h : ParsedDocument.read limits text = .ok p) {span : Span}
    {verdict : Bool} :
    p.attributeConforms? span = some verdict
      ↔ ∃ entry ∈ p.dataItems, ∃ m ∈ attributeMembers entry,
          m.1.content = span ∧ p.conforms? m = some verdict := by
  have hfound : ∀ {b : Bool}, p.attributeConforms? span = some b →
      ∃ entry ∈ p.dataItems, ∃ m ∈ attributeMembers entry,
        m.1.content = span ∧ p.conforms? m = some b := by
    intro b hb
    obtain ⟨⟨node, entry⟩, hmem, hentry⟩ := List.exists_of_findSome?_eq_some hb
    obtain ⟨m, hm, hconforms⟩ := Option.bind_eq_some_iff.1 hentry
    obtain ⟨hitem, -⟩ := (p.mem_entries_iff h).1 hmem
    have hcontent : m.1.content = span := by simpa using List.find?_some hm
    exact ⟨entry, hitem, m, List.mem_of_find?_eq_some hm, hcontent, hconforms⟩
  refine ⟨hfound, ?_⟩
  rintro ⟨entry, hentry, m, hm, rfl, hconforms⟩
  cases hverdict : p.attributeConforms? m.1.content with
  | some b =>
    -- the attribute that was found is this one
    obtain ⟨other, hother, n, hn, hcontent, hb⟩ := hfound hverdict
    obtain rfl := attribute_eq_of_content_eq h hother hentry hn hm hcontent
    rw [← hb, hconforms]
  | none =>
    have hmem := (p.mem_entries_iff h).2 ⟨hentry, rfl⟩
    have hnone := List.findSome?_eq_none_iff.1 hverdict _ hmem
    dsimp only at hnone
    cases hfind : (attributeMembers entry).find? fun x => x.1.content == m.1.content with
    | none =>
      have hmiss := List.find?_eq_none.1 hfind m hm
      exact absurd (beq_self_eq_true _) hmiss
    | some n =>
      have hcontent : n.1.content = m.1.content := by simpa using List.find?_some hfind
      have hn := List.mem_of_find?_eq_some hfind
      obtain rfl := attribute_eq_of_content_eq h hentry hentry hn hm hcontent
      rw [hfind, Option.bind_some, hconforms] at hnone
      cases hnone

/-- An attribute does not conform, by the verdict at its place, if and only if it is reported
    there. -/
theorem attributeConforms?_eq_some_false_iff (h : ParsedDocument.read limits text = .ok p)
    {span : Span} :
    p.attributeConforms? span = some false ↔ ∃ i ∈ p.invalidAttributes, i.span = span := by
  rw [attributeConforms?_eq_some_iff h]
  constructor
  · rintro ⟨entry, hentry, m, hm, rfl, hconforms⟩
    have hmem := (p.mem_entries_iff h).2 ⟨hentry, rfl⟩
    exact ⟨_, mem_invalidAttributes_iff.2 ⟨_, _, m, hmem, hm, hconforms, rfl⟩, rfl⟩
  · rintro ⟨i, hi, rfl⟩
    obtain ⟨node, entry, m, hmem, hm, hconforms, rfl⟩ := mem_invalidAttributes_iff.1 hi
    exact ⟨entry, ((p.mem_entries_iff h).1 hmem).1, m, hm, rfl, hconforms⟩

/-- There is a verdict on every attribute whose key is marked as the use of a schema. -/
theorem conforms?_isSome_of_usage (h : ParsedDocument.read limits text = .ok p)
    {g : IdentifierGraph} {d : Decoration} (hd : d ∈ Decoration.ofParsed p g)
    (hkind : d.kind = .schemaUsage) {entry : Tree} (hentry : entry ∈ p.dataItems)
    {m : Key × Tree} (hm : m ∈ attributeMembers entry) (hcontent : m.1.content = d.span) :
    (p.conforms? m).isSome = true := by
  obtain ⟨token, htoken, hmarks⟩ := Decoration.mem_ofParsed_iff.1 hd
  have hspan : m.1.token.span = token.span := hcontent.trans hmarks.span
  have htree := (ParsedDocument.of_read h).1
  obtain rfl := eq_of_span_eq htree (attributeToken_mem h hentry hm) htoken hspan
  cases hmarks with
  | usage husage =>
    have hhas : Keyed.has m.1.name p.document.schemas = true := husage.2.1
    rwa [ParsedDocument.conforms?, SchemaTable.accepts?, Option.isSome_map, ← Keyed.has_eq_isSome]
  | definition _ _ => cases hkind
  | identifier _ _ => cases hkind

/-! ## Both together -/

namespace Analysis

theorem attributeConforms?_of_read {style : TooltipStyle} {text : String} {d : Decoration}
    (h : ParsedDocument.read .standard text.toList = .ok p) (hkind : d.kind = .schemaUsage) :
    (ofText style text).attributeConforms? d = p.attributeConforms? d.span := by
  rw [attributeConforms?, hkind, ofText_of_read style h]
  rfl

/-- At a token that is marked as the use of a schema, the tooltip says that a value does not conform
    if and only if an attribute is reported there; and it says that a value conforms if and only if
    the token is the key of an attribute and none is reported there. -/
theorem attributeConforms?_iff_reported {style : TooltipStyle} {text : String} {d : Decoration}
    (hparsed : (ofText style text).parsed = some p) (hd : d ∈ (ofText style text).decorations)
    (hkind : d.kind = .schemaUsage) :
    ((ofText style text).attributeConforms? d = some false
        ↔ ∃ i ∈ (ofText style text).invalidAttributes, i.span = d.span)
      ∧ ((ofText style text).attributeConforms? d = some true
        ↔ (∃ node entry, (node, entry) ∈ p.entries
            ∧ ∃ m ∈ attributeMembers entry, m.1.content = d.span)
          ∧ ¬ ∃ i ∈ (ofText style text).invalidAttributes, i.span = d.span) := by
  obtain ⟨hread, hofText⟩ := of_parsed_eq_some hparsed
  rw [decorations_of_read style hread] at hd
  have hreported : p.attributeConforms? d.span = some false
      ↔ ∃ i ∈ (ofText style text).invalidAttributes, i.span = d.span := by
    rw [hofText]
    exact attributeConforms?_eq_some_false_iff hread
  rw [attributeConforms?_of_read hread hkind]
  refine ⟨hreported, ?_⟩
  rw [← hreported, attributeConforms?_eq_some_iff hread]
  constructor
  · rintro ⟨entry, hentry, m, hm, hcontent, hconforms⟩
    refine ⟨⟨_, entry, (p.mem_entries_iff hread).2 ⟨hentry, rfl⟩, m, hm, hcontent⟩, ?_⟩
    have htrue := (attributeConforms?_eq_some_iff hread).2
      ⟨entry, hentry, m, hm, hcontent, hconforms⟩
    rw [htrue]
    nofun
  · rintro ⟨⟨node, entry, hmem, m, hm, hcontent⟩, hnot⟩
    obtain ⟨hentry, -⟩ := (p.mem_entries_iff hread).1 hmem
    -- the schema is there, so the verdict is one of the two
    have hsome := conforms?_isSome_of_usage hread hd hkind hentry hm hcontent
    obtain ⟨verdict, hconforms⟩ := Option.isSome_iff_exists.1 hsome
    cases verdict with
    | true => exact ⟨entry, hentry, m, hm, hcontent, hconforms⟩
    | false =>
      have hfalse := (attributeConforms?_eq_some_iff hread).2
        ⟨entry, hentry, m, hm, hcontent, hconforms⟩
      exact absurd hfalse hnot

/-- Of the two values of one attribute the first does not conform and the second does, and the
    tooltips on the two keys say so. -/
theorem attributeConforms?_iff_reported_overridden :
    ∃ a p d e, a = ofText .detailed (String.ofList overridden) ∧ a.parsed = some p
      ∧ d ∈ a.decorations ∧ d.kind = .schemaUsage ∧ e ∈ a.decorations ∧ e.kind = .schemaUsage
      ∧ (∃ i ∈ a.invalidAttributes, i.span = d.span)
      ∧ (∃ node entry, (node, entry) ∈ p.entries
          ∧ ∃ m ∈ attributeMembers entry, m.1.content = e.span)
      ∧ ¬ ∃ i ∈ a.invalidAttributes, i.span = e.span := by
  have hcomputed : ((ParsedDocument.read .standard overridden).toOption.any fun p =>
      p.tree.strings.any fun first => p.tree.strings.any fun second =>
        ((Decoration.ofString? p (.ofParsed p) first).any fun d =>
            d.kind == .schemaUsage && p.attributeConforms? d.span == some false)
          && (Decoration.ofString? p (.ofParsed p) second).any fun e =>
            e.kind == .schemaUsage && p.attributeConforms? e.span == some true) = true := by
    decide +kernel
  obtain ⟨p, hread, hcomputed⟩ := exists_of_any_toOption hcomputed
  simp only [List.any_eq_true, Bool.and_eq_true, Option.any_eq_true, beq_iff_eq] at hcomputed
  obtain ⟨first, hfirst, second, hsecond, ⟨d, hd, hdkind, hfalse⟩, e, he, hekind, htrue⟩ :=
    hcomputed
  have hd := Decoration.mem_ofParsed_iff.2
    ⟨first, hfirst, (Decoration.ofString?_eq_some_iff.1 hd).1⟩
  have he := Decoration.mem_ofParsed_iff.2
    ⟨second, hsecond, (Decoration.ofString?_eq_some_iff.1 he).1⟩
  rw [← String.toList_ofList (l := overridden)] at hread
  have hparsed : (ofText .detailed (String.ofList overridden)).parsed = some p := by
    rw [ofText_of_read .detailed hread]
    rfl
  rw [← decorations_of_read .detailed hread] at hd he
  rw [← attributeConforms?_of_read hread hdkind] at hfalse
  rw [← attributeConforms?_of_read hread hekind] at htrue
  refine ⟨_, p, d, e, rfl, hparsed, hd, hdkind, he, hekind, ?_, ?_⟩
  · exact (attributeConforms?_iff_reported hparsed hd hdkind).1.1 hfalse
  · exact (attributeConforms?_iff_reported hparsed he hekind).2.1 htrue

end Analysis

end BimEditor
