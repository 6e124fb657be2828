/-
  BimEditor.Proofs.Analysis.MarkedTokens

  The marked tokens of a document. Every one of them stands on a string of the document and names
  what that string says; `Marks` lists the ways in which a string is marked, and `mem_ofParsed_iff`
  says that these are all.

  Strings do not touch each other, so two marked tokens stand at one place or apart
  (`span_eq_or_apart`). They stand at one place only if a schema and a node share a name, where the
  name of the schema is defined (`Marks.eq_or_shared`). The token that an offset touches is found
  whenever there is one (`exists_at?`).
-/
import BimEditor.Analysis.Basic
import BimEditor.Proofs.Document.Entries
import BimEditor.Proofs.Json.StringOrder

namespace BimEditor

open BimEditor.Json BimEditor.Text

variable {limits : Limits} {text : List Char} {p : ParsedDocument} {g : IdentifierGraph}

/-! ## The strings of a document -/

namespace ParsedDocument

/-- The names of the schema table, where they are defined, are strings of the document. -/
theorem schemaTokens_sublist (p : ParsedDocument) :
    (p.schemaMembers.map fun m => m.1.token).Sublist p.tree.strings :=
  Tree.memberTokens_sublist p.tree "schemas"

theorem schemaToken_mem {m : Key × Tree} (h : m ∈ p.schemaMembers) :
    m.1.token ∈ p.tree.strings :=
  (schemaTokens_sublist p).subset (List.mem_map_of_mem h)

/-- The strings of an entry of the data list are strings of the document. -/
theorem entryStrings_sublist (h : ParsedDocument.read limits text = .ok p) {entry : Tree}
    (hentry : entry ∈ p.dataItems) : entry.strings.Sublist p.tree.strings := by
  obtain ⟨data, hdata, hitems, -⟩ := data_of_read h
  have hitem := Tree.strings_sublist_of_items? hitems hentry
  exact hitem.trans (Tree.strings_sublist_of_get? hdata)

end ParsedDocument

namespace Decoration

/-! ## How a string is marked -/

/-- The string is a key that names a schema, and does not define one. -/
def IsUsage (p : ParsedDocument) (token : StringToken) : Prop :=
  token.role = .key ∧ Keyed.has token.text p.document.schemas = true
    ∧ ∀ m ∈ p.schemaMembers, m.1.content ≠ token.span

/-- `d` marks the string `token`. -/
inductive Marks (p : ParsedDocument) (g : IdentifierGraph) (token : StringToken) :
    Decoration → Prop where
  | definition {m : Key × Tree} : m ∈ p.schemaMembers → m.1.token = token →
      Marks p g token ⟨token.span, .schemaDefinition, token.text, true⟩
  | usage : IsUsage p token → Marks p g token ⟨token.span, .schemaUsage, token.text, false⟩
  -- the name of a schema is left to the schema, except where it is defined
  | identifier : ¬ IsUsage p token → g.has token.text = true →
      Marks p g token
        ⟨token.span, .identifier, token.text, g.definition? token.text == some token.span⟩

variable {token : StringToken} {d e : Decoration}

theorem Marks.span (h : Marks p g token d) : d.span = token.span := by
  cases h <;> rfl

theorem Marks.target (h : Marks p g token d) : d.target = token.text := by
  cases h <;> rfl

/-- A string that is no key is not marked for a schema. -/
theorem not_isUsage_of_value (hrole : token.role = .value) : ¬ IsUsage p token := by
  rintro ⟨hkey, -⟩
  rw [hrole] at hkey
  cases hkey

theorem Marks.kind_of_value (h : Marks p g token d) (hrole : token.role = .value) :
    d.kind = .identifier := by
  cases h with
  | definition _ heq =>
    rw [← heq] at hrole
    cases hrole
  | usage husage => exact absurd husage (not_isUsage_of_value hrole)
  | identifier _ _ => rfl

theorem ofString?_eq_some_iff :
    ofString? p g token = some d ↔ Marks p g token d ∧ d.kind ≠ .schemaDefinition := by
  constructor
  · intro h
    rw [ofString?] at h
    split at h
    · next hif =>
      obtain rfl := Option.some.inj h
      have husage : IsUsage p token := by simpa [IsUsage] using hif
      exact ⟨.usage husage, nofun⟩
    · next hif =>
      split at h
      · next hhas =>
        obtain rfl := Option.some.inj h
        have husage : ¬ IsUsage p token := by simpa [IsUsage] using hif
        exact ⟨.identifier husage hhas, nofun⟩
      · cases h
  · rintro ⟨hmarks, hkind⟩
    cases hmarks with
    | definition _ _ => exact absurd rfl hkind
    | usage h =>
      rw [ofString?, if_pos]
      simpa [IsUsage] using h
    | identifier h hhas =>
      rw [ofString?, if_neg, if_pos hhas]
      simpa [IsUsage] using h

theorem mem_schemaDefinitions_iff :
    d ∈ schemaDefinitions p
      ↔ ∃ m ∈ p.schemaMembers, d = ⟨m.1.content, .schemaDefinition, m.1.name, true⟩ := by
  rw [schemaDefinitions, List.mem_map]
  exact exists_congr fun m => and_congr_right fun _ => eq_comm

/-- A token is marked if and only if it stands on a string of the document in one of the ways. -/
theorem mem_ofParsed_iff :
    d ∈ ofParsed p g ↔ ∃ token ∈ p.tree.strings, Marks p g token d := by
  rw [ofParsed, List.mem_mergeSort, List.mem_append, List.mem_filterMap, mem_schemaDefinitions_iff]
  constructor
  · rintro (⟨m, hm, rfl⟩ | ⟨token, htoken, hsome⟩)
    · exact ⟨m.1.token, ParsedDocument.schemaToken_mem hm, .definition hm rfl⟩
    · exact ⟨token, htoken, (ofString?_eq_some_iff.1 hsome).1⟩
  · rintro ⟨token, htoken, hmarks⟩
    by_cases hkind : d.kind = .schemaDefinition
    · left
      cases hmarks with
      | definition hm heq =>
        subst heq
        exact ⟨_, hm, rfl⟩
      | usage _ => cases hkind
      | identifier _ _ => cases hkind
    · exact .inr ⟨token, htoken, ofString?_eq_some_iff.2 ⟨hmarks, hkind⟩⟩

/-- The string defines a schema and names a node. -/
def IsShared (p : ParsedDocument) (g : IdentifierGraph) (token : StringToken) : Prop :=
  (∃ m ∈ p.schemaMembers, m.1.token = token) ∧ g.has token.text = true

theorem not_isUsage_of_mem {m : Key × Tree} (hm : m ∈ p.schemaMembers) :
    ¬ IsUsage p m.1.token := by
  rintro ⟨-, -, hnone⟩
  exact hnone m hm rfl

/-- A string is marked twice only if it is shared, and then in two different ways. -/
theorem Marks.eq_or_shared (hd : Marks p g token d) (he : Marks p g token e) :
    d = e ∨ IsShared p g token ∧ (d.kind = .identifier ↔ e.kind ≠ .identifier) := by
  cases hd with
  | definition hm heq =>
    cases he with
    | definition _ _ => exact .inl rfl
    | usage h =>
      subst heq
      exact absurd h (not_isUsage_of_mem hm)
    | identifier _ hhas => exact .inr ⟨⟨⟨_, hm, heq⟩, hhas⟩, by simp⟩
  | usage h =>
    cases he with
    | definition hm heq =>
      subst heq
      exact absurd h (not_isUsage_of_mem hm)
    | usage _ => exact .inl rfl
    | identifier h' _ => exact absurd h h'
  | identifier h hhas =>
    cases he with
    | definition hm heq => exact .inr ⟨⟨⟨_, hm, heq⟩, hhas⟩, by simp⟩
    | usage h' => exact absurd h' h
    | identifier _ _ => exact .inl rfl

/-- A shared string is marked as both. -/
theorem IsShared.marks (h : IsShared p g token) :
    Marks p g token ⟨token.span, .schemaDefinition, token.text, true⟩
      ∧ Marks p g token
        ⟨token.span, .identifier, token.text, g.definition? token.text == some token.span⟩ := by
  obtain ⟨⟨m, hm, rfl⟩, hhas⟩ := h
  exact ⟨.definition hm rfl, .identifier (not_isUsage_of_mem hm) hhas⟩

/-- A document in which a schema and a node have the same name. -/
def sharedName : List Char :=
  "\x7b\"header\":\x7b\"version\":\"1\",\"author\":\"a\",\"timestamp\":\"t\"\x7d,".toList
    ++ "\"schemas\":\x7b\"w\":\x7b\"value\":\x7b\"dataType\":\"Integer\"\x7d\x7d\x7d,".toList
    ++ "\"data\":[\x7b\"identifier\":\"w\",".toList
    ++ "\"attributes\":\x7b\"w\":1\x7d\x7d]\x7d".toList

/-- The name is the only key of the schema table, and the identifier of the only node. -/
theorem exists_read_sharedName : ∃ p m, ParsedDocument.read .standard sharedName = .ok p
    ∧ p.schemaMembers = [m] ∧ m.1.token = ⟨"w", ⟨67, 68⟩, .key⟩
    ∧ ⟨"w", ⟨127, 128⟩, .value⟩ ∈ p.tree.strings
    ∧ (IdentifierGraph.ofParsed p).has "w" = true
    ∧ (IdentifierGraph.ofParsed p).definition? "w" = some ⟨127, 128⟩ := by
  have hcomputed : ((ParsedDocument.read .standard sharedName).toOption.any fun p =>
      decide (p.schemaMembers.map (fun m => m.1.token) = [⟨"w", ⟨67, 68⟩, .key⟩])
        && (decide (⟨"w", ⟨127, 128⟩, .value⟩ ∈ p.tree.strings)
          && ((IdentifierGraph.ofParsed p).has "w"
            && decide ((IdentifierGraph.ofParsed p).definition? "w" = some ⟨127, 128⟩))))
      = true := by
    decide +kernel
  obtain ⟨p, hread, hcomputed⟩ := exists_of_any_toOption hcomputed
  simp only [Bool.and_eq_true, decide_eq_true_eq] at hcomputed
  obtain ⟨hmembers, hstring, hhas, hdefinition⟩ := hcomputed
  obtain ⟨m, hm, htoken⟩ := List.map_eq_singleton_iff.1 hmembers
  exact ⟨p, m, hread, hm, htoken, hstring, hhas, hdefinition⟩

/-! ## Where the marked tokens stand -/

/-- The marked tokens are sorted by their starts. -/
theorem ofParsed_sorted (p : ParsedDocument) (g : IdentifierGraph) :
    (ofParsed p g).Pairwise fun d e => d.span.start ≤ e.span.start := by
  refine List.Pairwise.imp of_decide_eq_true (List.pairwise_mergeSort ?_ ?_ _)
  · intro a b c hab hbc
    rw [decide_eq_true_iff] at *
    exact Nat.le_trans hab hbc
  · intro a b
    rw [Bool.or_eq_true, decide_eq_true_iff, decide_eq_true_iff]
    exact Nat.le_total _ _

theorem start_le_stop (h : ParsedDocument.read limits text = .ok p) (hd : d ∈ ofParsed p g) :
    d.span.start ≤ d.span.stop := by
  obtain ⟨token, htoken, hmarks⟩ := mem_ofParsed_iff.1 hd
  rw [hmarks.span]
  exact start_le_stop_of_read (ParsedDocument.of_read h).1 htoken

/-- Two marked tokens stand on one string, or one of them stands behind the other. -/
theorem token_eq_or_before (h : ParsedDocument.read limits text = .ok p) (hd : d ∈ ofParsed p g)
    (he : e ∈ ofParsed p g) :
    (∃ token ∈ p.tree.strings, Marks p g token d ∧ Marks p g token e)
      ∨ d.span.stop < e.span.start ∨ e.span.stop < d.span.start := by
  obtain ⟨token, htoken, hmarks⟩ := mem_ofParsed_iff.1 hd
  obtain ⟨other, hother, hmarks'⟩ := mem_ofParsed_iff.1 he
  rw [hmarks.span, hmarks'.span]
  have htree := (ParsedDocument.of_read h).1
  rcases eq_or_before_of_read htree htoken hother with rfl | hbefore | hbefore
  · exact .inl ⟨token, htoken, hmarks, hmarks'⟩
  · unfold StringToken.Before at hbefore
    omega
  · unfold StringToken.Before at hbefore
    omega

theorem span_eq_or_apart (h : ParsedDocument.read limits text = .ok p) (hd : d ∈ ofParsed p g)
    (he : e ∈ ofParsed p g) :
    d.span = e.span ∨ d.span.stop < e.span.start ∨ e.span.stop < d.span.start := by
  refine (token_eq_or_before h hd he).imp_left ?_
  rintro ⟨token, -, hmarks, hmarks'⟩
  rw [hmarks.span, hmarks'.span]

/-- No token is marked twice in the same way. -/
theorem nodup_ofParsed (h : ParsedDocument.read limits text = .ok p) : (ofParsed p g).Nodup := by
  have hspans := nodup_spans_of_read (ParsedDocument.of_read h).1
  have hdefinitions : (schemaDefinitions p).Nodup := by
    have hsublist := (ParsedDocument.schemaTokens_sublist p).map (·.span)
    have hnodup := hspans.sublist hsublist
    rw [List.map_map, List.Nodup, List.pairwise_map] at hnodup
    rw [schemaDefinitions, List.Nodup, List.pairwise_map]
    exact hnodup.imp fun hne heq => hne (congrArg Decoration.span heq)
  have hothers : (p.tree.strings.filterMap (ofString? p g)).Nodup := by
    rw [List.Nodup, List.pairwise_map] at hspans
    rw [List.Nodup, List.pairwise_filterMap]
    refine hspans.imp fun {a b} hne d hd e he heq => hne ?_
    rw [← (ofString?_eq_some_iff.1 hd).1.span, ← (ofString?_eq_some_iff.1 he).1.span, heq]
  rw [ofParsed, (List.mergeSort_perm _ _).nodup_iff]
  refine List.nodup_append.2 ⟨hdefinitions, hothers, fun d hd e he heq => ?_⟩
  -- what a string means apart from defining a schema is no definition of a schema
  obtain ⟨m, -, rfl⟩ := mem_schemaDefinitions_iff.1 hd
  obtain ⟨token, -, hsome⟩ := List.mem_filterMap.1 he
  exact (ofString?_eq_some_iff.1 hsome).2 (congrArg Decoration.kind heq.symm)

/-! ## The token that an offset touches -/

variable {ds : List Decoration} {offset : Nat}

theorem of_at?_eq_some (h : at? ds offset = some d) : d ∈ ds ∧ d.span.touches offset = true := by
  obtain ⟨hlast, htouches⟩ := Option.filter_eq_some_iff.1 h
  have hmem := List.mem_of_getLast? hlast
  exact ⟨(List.takeWhile_sublist _).subset hmem, htouches⟩

/-- In a sorted list, every token that starts at or before an offset is among the first ones. -/
theorem mem_takeWhile (hsorted : ds.Pairwise fun d e => d.span.start ≤ e.span.start) (hd : d ∈ ds)
    (hstart : d.span.start ≤ offset) :
    d ∈ ds.takeWhile fun d => decide (d.span.start ≤ offset) := by
  induction hsorted with
  | nil => cases hd
  | @cons first rest hfirst _ ih =>
    have hfits : first.span.start ≤ offset := by
      rcases List.mem_cons.1 hd with rfl | hrest
      · exact hstart
      · exact Nat.le_trans (hfirst d hrest) hstart
    rw [List.takeWhile_cons, if_pos (decide_eq_true hfits)]
    rcases List.mem_cons.1 hd with rfl | hrest
    · exact List.mem_cons_self
    · exact List.mem_cons_of_mem _ (ih hrest)

/-- The last element of a sorted list is the greatest one. -/
theorem start_le_getLast (hsorted : ds.Pairwise fun d e => d.span.start ≤ e.span.start)
    (hlast : ds.getLast? = some e) (hd : d ∈ ds) : d.span.start ≤ e.span.start := by
  obtain ⟨init, rfl⟩ := List.getLast?_eq_some_iff.1 hlast
  rcases List.mem_append.1 hd with hinit | hend
  · exact (List.pairwise_append.1 hsorted).2.2 d hinit e (List.mem_singleton.2 rfl)
  · obtain rfl := List.mem_singleton.1 hend
    exact Nat.le_refl _

/-- Among sorted tokens that stand at one place or apart, an offset that touches one finds one. -/
theorem exists_at? (hsorted : ds.Pairwise fun d e => d.span.start ≤ e.span.start)
    (hlength : ∀ d ∈ ds, d.span.start ≤ d.span.stop)
    (hapart : ∀ d ∈ ds, ∀ e ∈ ds,
      d.span = e.span ∨ d.span.stop < e.span.start ∨ e.span.stop < d.span.start)
    (hd : d ∈ ds) (htouches : d.span.touches offset = true) : ∃ e, at? ds offset = some e := by
  obtain ⟨hstart, hstop⟩ := Span.touches_iff.1 htouches
  have hmem := mem_takeWhile hsorted hd hstart
  cases hlast : (ds.takeWhile fun d => decide (d.span.start ≤ offset)).getLast? with
  | none =>
    rw [List.getLast?_eq_none_iff.1 hlast] at hmem
    cases hmem
  | some e =>
    have hsub := List.takeWhile_sublist (l := ds) fun d => decide (d.span.start ≤ offset)
    have hafter := start_le_getLast (hsorted.sublist hsub) hlast hmem
    have he := List.mem_of_getLast? hlast
    have hbefore : e.span.start ≤ offset :=
      of_decide_eq_true (List.all_eq_true.1 List.all_takeWhile e he)
    -- the last token that starts so early stands where `d` stands: it is not behind `d`
    have htouches' : e.span.touches offset = true := by
      rcases hapart d hd e (hsub.subset he) with heq | hlt | hlt
      · rwa [← heq]
      · omega
      · have := hlength e (hsub.subset he)
        omega
    exact ⟨e, Option.filter_eq_some_iff.2 ⟨hlast, htouches'⟩⟩

end Decoration

end BimEditor
