/-
  BimEditor.Proofs.Analysis.Actionable

  What an editor can do with a position of a document. Something is shown exactly where a token is
  marked, and for that token (`hover?_of_at?`); and from a marked token one gets to a token of the
  same name that is marked as its definition (`exists_definition`).

    * The names of schemas are the keys of the schema table, so each of them has a tooltip and is
      defined at the last key of that name.
    * An identifier is defined where its first entry has it, which is a string of the document and
      no key, so that it is marked as an identifier there and nowhere else as a definition
      (`exists_identifierToken`, `identifierDefinitions_eq`).
-/
import BimEditor.Analysis.Hover
import BimEditor.Analysis.Symbol
import BimEditor.Proofs.Analysis.MarkedTokens
import BimEditor.Proofs.Analysis.OfText
import BimEditor.Proofs.Graph.Profile

namespace BimEditor

open BimEditor.Json BimEditor.Text

variable {limits : Limits} {text : List Char} {p : ParsedDocument}

/-! ## Where an identifier is defined -/

/-- An entry with an identifier has it as a string. -/
theorem identifierToken_of_entry {entry : Tree} {x : String} (hx : x ≠ "")
    (h : (Node.ofValue entry.toValue).identifier = x) :
    ∃ token ∈ entry.strings, token.text = x ∧ token.role = .value
      ∧ IdentifierGraph.identifierSpan? entry = some token.span := by
  have hread : ((entry.get? "identifier").bind Tree.string?).getD "" = x := by
    rw [← h]
    show _ = ((entry.toValue.member? "identifier").bind Value.string?).getD ""
    rw [← Tree.get?_toValue, Option.bind_map]
    congr 2
    funext v
    exact (Tree.string?_toValue v).symm
  cases hstring : (entry.get? "identifier").bind Tree.string? with
  | none =>
    rw [hstring] at hread
    exact absurd hread.symm hx
  | some y =>
    rw [hstring, Option.getD_some] at hread
    subst hread
    obtain ⟨v, hv, hy⟩ := Option.bind_eq_some_iff.1 hstring
    have hsublist := Tree.strings_sublist_of_get? hv
    rw [Tree.strings_of_string? hy] at hsublist
    refine ⟨_, hsublist.subset (List.mem_singleton.2 rfl), rfl, rfl, ?_⟩
    rw [IdentifierGraph.identifierSpan?, hv, Option.bind_some, hy, Option.map_some]

/-- An identifier of the graph is defined at a string of the document that is no key. -/
theorem exists_identifierToken (h : ParsedDocument.read limits text = .ok p) {x : String}
    (hx : (IdentifierGraph.ofParsed p).has x = true) :
    ∃ token ∈ p.tree.strings, token.text = x ∧ token.role = .value
      ∧ (IdentifierGraph.ofParsed p).definition? x = some token.span := by
  rw [IdentifierGraph.ofParsed] at hx ⊢
  have hmem := IdentifierGraph.has_ofEntries.1 hx
  obtain ⟨first, hfirst, hid, hdefinition⟩ := IdentifierGraph.definition?_ofEntries hmem
  obtain ⟨⟨node, entry⟩, hentry, rfl⟩ := List.mem_map.1 hfirst
  obtain ⟨hitem, rfl⟩ := (p.mem_entries_iff h).1 hentry
  obtain ⟨token, htoken, htext, hrole, hspan⟩ :=
    identifierToken_of_entry (IdentifierGraph.ne_empty_of_mem hmem) hid
  exact ⟨token, (p.entryStrings_sublist h hitem).subset htoken, htext, hrole,
    hdefinition.trans hspan⟩

/-- The token that defines an identifier is marked as its definition. -/
theorem identifierDefinition_mem (h : ParsedDocument.read limits text = .ok p) {x : String}
    (hx : (IdentifierGraph.ofParsed p).has x = true) :
    ∃ span, (IdentifierGraph.ofParsed p).definition? x = some span
      ∧ ⟨span, .identifier, x, true⟩ ∈ Decoration.ofParsed p (IdentifierGraph.ofParsed p) := by
  obtain ⟨token, htoken, rfl, hrole, hspan⟩ := exists_identifierToken h hx
  have hnoUsage : ¬ Decoration.IsUsage p token := Decoration.not_isUsage_of_value hrole
  have hmarks := Decoration.Marks.identifier hnoUsage hx
  rw [hspan, beq_self_eq_true] at hmarks
  exact ⟨token.span, hspan, Decoration.mem_ofParsed_iff.2 ⟨token, htoken, hmarks⟩⟩

/-- Exactly one token is marked as the definition of an identifier. -/
theorem identifierDefinitions_eq (h : ParsedDocument.read limits text = .ok p) {x : String}
    (hx : (IdentifierGraph.ofParsed p).has x = true) :
    ∃ span, (IdentifierGraph.ofParsed p).definition? x = some span
      ∧ ((Decoration.ofParsed p (IdentifierGraph.ofParsed p)).filter fun d =>
          d.kind == .identifier && d.target == x && d.isDefinition)
        = [⟨span, .identifier, x, true⟩] := by
  obtain ⟨span, hspan, hmem⟩ := identifierDefinition_mem h hx
  refine ⟨span, hspan, ?_⟩
  have honly : ∀ d ∈ Decoration.ofParsed p (IdentifierGraph.ofParsed p),
      (d.kind == .identifier && d.target == x && d.isDefinition) = true →
      d = ⟨span, .identifier, x, true⟩ := by
    intro d hd hfits
    obtain ⟨token, -, hmarks⟩ := Decoration.mem_ofParsed_iff.1 hd
    simp only [Bool.and_eq_true, beq_iff_eq] at hfits
    obtain ⟨⟨hkind, htarget⟩, hdefinition⟩ := hfits
    cases hmarks with
    | definition _ _ => cases hkind
    | usage _ => cases hkind
    | identifier _ _ =>
      obtain rfl : token.text = x := htarget
      have hdefined : some span = some token.span := by
        rw [← hspan]
        exact beq_iff_eq.1 hdefinition
      rw [Option.some.inj hdefined]
      congr
  have hnodup := (Decoration.nodup_ofParsed (g := IdentifierGraph.ofParsed p) h).filter
    fun d => d.kind == .identifier && d.target == x && d.isDefinition
  refine List.perm_singleton.1 ((List.perm_ext_iff_of_nodup hnodup ?_).2 fun d => ?_)
  · exact List.pairwise_singleton _ _
  · rw [List.mem_filter, List.mem_singleton]
    constructor
    · exact fun hd => honly d hd.1 hd.2
    · rintro rfl
      exact ⟨hmem, by simp⟩

namespace Analysis

variable {style : TooltipStyle} {text : String} {d : Decoration}

/-! ## From a marked token to its definition -/

theorem has_schemas_of_mem (h : ParsedDocument.read .standard text.toList = .ok p)
    (hd : d ∈ (ofText style text).decorations) (hkind : d.kind ≠ .identifier) :
    Keyed.has d.target p.document.schemas = true := by
  rw [decorations_of_read style h] at hd
  obtain ⟨token, -, hmarks⟩ := Decoration.mem_ofParsed_iff.1 hd
  cases hmarks with
  | definition hm heq =>
    subst heq
    exact (p.has_schemas_iff h).2 ⟨_, hm, rfl⟩
  | usage husage => exact husage.2.1
  | identifier _ _ => exact absurd rfl hkind

theorem has_of_mem (h : ParsedDocument.read .standard text.toList = .ok p)
    (hd : d ∈ (ofText style text).decorations) (hkind : d.kind = .identifier) :
    (IdentifierGraph.ofParsed p).has d.target = true := by
  rw [decorations_of_read style h] at hd
  obtain ⟨token, -, hmarks⟩ := Decoration.mem_ofParsed_iff.1 hd
  cases hmarks with
  | definition _ _ => cases hkind
  | usage _ => cases hkind
  | identifier _ hhas => exact hhas

/-- A marked token has a definition, and that is a marked token for the same symbol. -/
theorem exists_definition (h : ParsedDocument.read .standard text.toList = .ok p)
    (hd : d ∈ (ofText style text).decorations) :
    ∃ e ∈ (ofText style text).decorations, e.isDefinition = true ∧ e.symbol = d.symbol
      ∧ (ofText style text).definitionSpan? d.symbol = some e.span := by
  by_cases hkind : d.kind = .identifier
  · obtain ⟨span, hspan, hmem⟩ := identifierDefinition_mem h (has_of_mem h hd hkind)
    have hsymbol : d.symbol = .identifier d.target := by rw [Decoration.symbol, hkind]
    refine ⟨_, decorations_of_read style h ▸ hmem, rfl, ?_, ?_⟩
    · rw [hsymbol]
      rfl
    · rw [hsymbol, definitionSpan?, ofText_of_read style h]
      exact hspan
  · have hschema := (p.has_schemas_iff h).1 (has_schemas_of_mem h hd hkind)
    obtain ⟨m, hm, hname, hspan⟩ := p.schemaDefinition?_eq_some h hschema
    have hsymbol : d.symbol = .schema d.target := by
      rw [Decoration.symbol]
      split
      · next heq => exact absurd heq hkind
      · rfl
    have hmem := Decoration.mem_ofParsed_iff.2
      ⟨m.1.token, ParsedDocument.schemaToken_mem hm,
        Decoration.Marks.definition (g := IdentifierGraph.ofParsed p) hm rfl⟩
    refine ⟨_, decorations_of_read style h ▸ hmem, rfl, ?_, ?_⟩
    · rw [hsymbol, ← hname]
      rfl
    · -- a name of the table is not taken for the last segment of another one
      simp only [hsymbol, definitionSpan?, ofText_of_read style h, ofParsed, Option.bind_eq_bind,
        Option.bind_some, hspan]
      rfl

/-! ## What is shown -/

/-- Something can be said about every marked token. -/
theorem hoverText?_isSome (h : ParsedDocument.read .standard text.toList = .ok p)
    (hd : d ∈ (ofText style text).decorations) :
    ((ofText style text).hoverText? d).isSome = true := by
  rw [hoverText?]
  split
  · rfl
  · next hkind =>
    have hschema := has_schemas_of_mem h hd hkind
    rw [Keyed.has_eq_isSome] at hschema
    rw [Option.isSome_map, Catalog.tooltip?, Option.isSome_map, ofText_of_read style h]
    exact hschema

/-- All marked tokens that an offset touches stand at one place. -/
theorem span_eq_of_touches (h : ParsedDocument.read .standard text.toList = .ok p)
    {e : Decoration} {offset : Nat} (hd : d ∈ (ofText style text).decorations)
    (he : e ∈ (ofText style text).decorations) (hdtouches : d.span.touches offset = true)
    (hetouches : e.span.touches offset = true) : e.span = d.span := by
  rw [decorations_of_read style h] at hd he
  rw [Span.touches_iff] at hdtouches hetouches
  rcases Decoration.span_eq_or_apart h hd he with heq | hlt | hlt
  · exact heq.symm
  · omega
  · omega

/-- Where a marked token is touched, one is found. -/
theorem at?_of_touches (h : ParsedDocument.read .standard text.toList = .ok p) {offset : Nat}
    (hd : d ∈ (ofText style text).decorations) (htouches : d.span.touches offset = true) :
    ∃ e ∈ (ofText style text).decorations, e.span.touches offset = true
      ∧ Decoration.at? (ofText style text).decorations offset = some e := by
  have hdecorations := decorations_of_read style h
  have hfound : ∃ e, Decoration.at? (ofText style text).decorations offset = some e := by
    rw [hdecorations] at hd ⊢
    exact Decoration.exists_at? (Decoration.ofParsed_sorted _ _)
      (fun _ he => Decoration.start_le_stop h he)
      (fun _ he _ he' => Decoration.span_eq_or_apart h he he') hd htouches
  obtain ⟨e, he⟩ := hfound
  obtain ⟨hmem, htouches'⟩ := Decoration.of_at?_eq_some he
  exact ⟨e, hmem, htouches', he⟩

variable {position : Position} {offset : Nat}

/-- The token that is found at a position is the one that is shown there, and the one whose
    definition is looked up. -/
theorem hover?_of_at? (h : ParsedDocument.read .standard text.toList = .ok p)
    (hoffset : offset? text.toList position = some offset)
    (hfound : Decoration.at? (ofText style text).decorations offset = some d) :
    (∃ hover, (ofText style text).hover? position = some hover
        ∧ hover.range = (ofText style text).range d.span)
      ∧ (ofText style text).symbolAt? position = some d.symbol := by
  have hd := (Decoration.of_at?_eq_some hfound).1
  obtain ⟨said, hsaid⟩ := Option.isSome_iff_exists.1 (hoverText?_isSome h hd)
  rw [← text_ofText style text] at hoffset
  constructor
  · refine ⟨⟨said, (ofText style text).range d.span⟩, ?_, rfl⟩
    simp only [hover?, decorationAt?, hoffset, Option.bind_some, hfound, Option.bind_eq_bind, hsaid,
      Option.pure_def]
  · simp only [symbolAt?, hoffset, Option.bind_eq_bind, Option.bind_some, hfound, Option.pure_def]

/-- Where a string that is no key names a node, the text refers to that node. -/
theorem symbolAt?_of_value (h : ParsedDocument.read .standard text.toList = .ok p)
    {token : StringToken} (htoken : token ∈ p.tree.strings) (hrole : token.role = .value)
    (hhas : (IdentifierGraph.ofParsed p).has token.text = true)
    (hoffset : offset? text.toList position = some offset)
    (htouches : token.span.touches offset = true) :
    (ofText style text).symbolAt? position = some (.identifier token.text) := by
  have hd := Decoration.mem_ofParsed_iff.2
    ⟨token, htoken, .identifier (Decoration.not_isUsage_of_value hrole) hhas⟩
  rw [← decorations_of_read style h] at hd
  obtain ⟨e, he, htouches', hfound⟩ := at?_of_touches h hd htouches
  rw [(hover?_of_at? h hoffset hfound).2]
  -- what is found marks the same string
  rw [decorations_of_read style h] at he
  obtain ⟨other, hother, hmarks⟩ := Decoration.mem_ofParsed_iff.1 he
  rw [hmarks.span] at htouches'
  obtain rfl := eq_of_touches (ParsedDocument.of_read h).1 hother htoken htouches' htouches
  rw [Decoration.symbol, hmarks.kind_of_value hrole, hmarks.target]

/-- Something is shown at a position if and only if it touches a marked token. All marked tokens
    that it touches stand at one place, for which it is shown; and the symbol at the position is
    that of such a token, and has its definition at a token that is marked as one. Every
    identifier has exactly one token that is marked as its definition, at the place where the graph
    says it is defined. -/
theorem actionable_iff_marked (style : TooltipStyle) (text : String) :
    (∀ position offset, offset? text.toList position = some offset →
      (((ofText style text).hover? position).isSome = true
          ↔ ∃ d ∈ (ofText style text).decorations, d.span.touches offset = true)
        ∧ ∀ d ∈ (ofText style text).decorations, d.span.touches offset = true →
          (∀ e ∈ (ofText style text).decorations, e.span.touches offset = true → e.span = d.span)
          ∧ (∃ hover, (ofText style text).hover? position = some hover
              ∧ hover.range = (ofText style text).range d.span)
          ∧ ∃ e ∈ (ofText style text).decorations, e.span.touches offset = true
              ∧ (ofText style text).symbolAt? position = some e.symbol
              ∧ ∃ target ∈ (ofText style text).decorations, target.isDefinition = true
                ∧ target.symbol = e.symbol
                ∧ (ofText style text).definition? e.symbol
                  = some ((ofText style text).range target.span))
      ∧ ∀ x, (ofText style text).graph.has x = true →
        ∃ span, (ofText style text).graph.definition? x = some span
          ∧ ((ofText style text).decorations.filter fun d =>
              d.kind == .identifier && d.target == x && d.isDefinition)
            = [⟨span, .identifier, x, true⟩] := by
  refine ⟨fun position offset hoffset => ⟨⟨?_, ?_⟩, ?_⟩, ?_⟩
  · intro hsome
    obtain ⟨hover, hhover⟩ := Option.isSome_iff_exists.1 hsome
    rw [← text_ofText style text] at hoffset
    simp only [hover?, decorationAt?, hoffset, Option.bind_some, Option.bind_eq_bind,
      Option.bind_eq_some_iff] at hhover
    obtain ⟨d, hd, -⟩ := hhover
    exact ⟨d, Decoration.of_at?_eq_some hd⟩
  · rintro ⟨d, hd, htouches⟩
    obtain ⟨p, hread⟩ := exists_read_of_mem hd
    obtain ⟨e, -, -, he⟩ := at?_of_touches hread hd htouches
    obtain ⟨⟨hover, hhover, -⟩, -⟩ := hover?_of_at? hread hoffset he
    rw [hhover, Option.isSome_some]
  · intro d hd htouches
    obtain ⟨p, hread⟩ := exists_read_of_mem hd
    obtain ⟨e, hmem, htouches', he⟩ := at?_of_touches hread hd htouches
    obtain ⟨⟨hover, hhover, hrange⟩, hsymbol⟩ := hover?_of_at? hread hoffset he
    obtain ⟨target, htarget, hdefinition, hsame, hspan⟩ := exists_definition hread hmem
    refine ⟨fun _ he he' => span_eq_of_touches hread hd he htouches he', ⟨hover, hhover, ?_⟩,
      e, hmem, htouches', hsymbol, target, htarget, hdefinition, hsame, ?_⟩
    · rw [hrange, span_eq_of_touches hread hd hmem htouches htouches']
    · rw [definition?, hspan, Option.map_some]
  · intro x hx
    obtain ⟨p, hread⟩ := exists_read_of_has hx
    rw [ofText_of_read style hread] at hx ⊢
    exact identifierDefinitions_eq hread hx

/-- The name of a schema that is also the identifier of a node, where the schema is defined, and
    where the node has it: there the node is shown, and its definition is that place. -/
theorem actionable_iff_marked_sharedName :
    (∃ d ∈ (ofText .summary (String.ofList Decoration.sharedName)).decorations,
        d.span.touches 67 = true
          ∧ ((ofText .summary (String.ofList Decoration.sharedName)).hover? ⟨0, 67⟩).isSome = true
          ∧ ∃ e ∈ (ofText .summary (String.ofList Decoration.sharedName)).decorations,
            (ofText .summary (String.ofList Decoration.sharedName)).symbolAt? ⟨0, 67⟩
                = some e.symbol
              ∧ ((ofText .summary (String.ofList Decoration.sharedName)).definition?
                  e.symbol).isSome = true)
      ∧ (∃ hover, (ofText .summary (String.ofList Decoration.sharedName)).hover? ⟨0, 127⟩
            = some hover
          ∧ hover.range = ⟨⟨0, 127⟩, ⟨0, 128⟩⟩)
      ∧ (ofText .summary (String.ofList Decoration.sharedName)).symbolAt? ⟨0, 127⟩
        = some (.identifier "w")
      ∧ (ofText .summary (String.ofList Decoration.sharedName)).definition? (.identifier "w")
        = some ⟨⟨0, 127⟩, ⟨0, 128⟩⟩ := by
  obtain ⟨p, m, hread, hmembers, htoken, hstring, hhas, hdefinition⟩ :=
    Decoration.exists_read_sharedName
  have hm : m ∈ p.schemaMembers := hmembers ▸ List.mem_singleton.2 rfl
  have hoffset : ∀ column offset, offset? Decoration.sharedName ⟨0, column⟩ = some offset →
      offset? (String.ofList Decoration.sharedName).toList ⟨0, column⟩ = some offset := by
    rw [String.toList_ofList]
    exact fun _ _ h => h
  rw [← String.toList_ofList (l := Decoration.sharedName)] at hread
  have hgraph : (ofText .summary (String.ofList Decoration.sharedName)).graph
      = IdentifierGraph.ofParsed p := by
    rw [ofText_of_read .summary hread]
    rfl
  have hrange : (ofText .summary (String.ofList Decoration.sharedName)).range ⟨127, 128⟩
      = ⟨⟨0, 127⟩, ⟨0, 128⟩⟩ := by
    rw [Analysis.range, text_ofText, String.toList_ofList]
    decide +kernel
  have hshown := (actionable_iff_marked .summary (String.ofList Decoration.sharedName)).1
  refine ⟨?_, ?_, ?_, ?_⟩
  · -- the key that defines the schema
    have hd := Decoration.mem_ofParsed_iff.2 ⟨m.1.token, ParsedDocument.schemaToken_mem hm,
      Decoration.Marks.definition (g := IdentifierGraph.ofParsed p) hm rfl⟩
    rw [htoken, ← decorations_of_read .summary hread] at hd
    obtain ⟨hiff, hall⟩ := hshown ⟨0, 67⟩ 67 (hoffset _ _ (by decide +kernel))
    obtain ⟨-, -, e, he, -, hsymbol, target, -, -, -, hdefined⟩ := hall _ hd rfl
    refine ⟨_, hd, rfl, hiff.2 ⟨_, hd, rfl⟩, e, he, hsymbol, ?_⟩
    rw [hdefined, Option.isSome_some]
  · -- the string that defines the node
    obtain ⟨span, hspan, hd⟩ := identifierDefinition_mem hread hhas
    obtain rfl := Option.some.inj (hspan.symm.trans hdefinition)
    rw [← decorations_of_read .summary hread] at hd
    obtain ⟨-, hhover, -⟩ :=
      (hshown ⟨0, 127⟩ 127 (hoffset _ _ (by decide +kernel))).2 _ hd rfl
    rwa [hrange] at hhover
  · exact symbolAt?_of_value hread hstring rfl hhas (hoffset 127 127 (by decide +kernel)) rfl
  · rw [definition?, definitionSpan?, hgraph, hdefinition, Option.map_some, hrange]

end Analysis

end BimEditor
