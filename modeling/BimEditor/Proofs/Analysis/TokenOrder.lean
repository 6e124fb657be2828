/-
  BimEditor.Proofs.Analysis.TokenOrder

  The order of the tokens that an editor colours. Marked tokens are sorted by their offsets, and
  places grow with offsets, so no distance between two tokens is cut off at zero: the tokens are
  decoded to what they were (`decode_semanticTokens`). Only a text that was read has marked tokens,
  and it is so small that all of its places fit in words (`byteLength_lt_of_read`).

  Tokens stand one behind another, except for those on a string that defines a schema and names a
  node (`placedTokens_pairwise`). Such a string is marked as both, so it gives two tokens at one
  place, unless a line ends inside of it (`exists_coincide`).
-/
import BimEditor.Analysis.Token
import BimEditor.Proofs.Analysis.MarkedTokens
import BimEditor.Proofs.Analysis.OfText
import BimEditor.Proofs.Graph.Profile
import BimEditor.Proofs.Text.PositionOrder
import Mathlib.Data.List.Chain

namespace BimEditor

open BimEditor.Json BimEditor.Text

namespace SemanticToken

/-- The tokens at the given distances, where the last token before them starts at
    `(line, start)`. -/
def decodeFrom (line start : Nat) : List SemanticToken → List PlacedToken
  | [] => []
  | t :: ts =>
    let column := if t.deltaLine = 0 then start + t.deltaStart else t.deltaStart
    ⟨line + t.deltaLine, column, t.length, t.type, t.isDefinition⟩
      :: decodeFrom (line + t.deltaLine) column ts

/-- The tokens of a text, by their distances. -/
def decode (ts : List SemanticToken) : List PlacedToken :=
  decodeFrom 0 0 ts

end SemanticToken

namespace PlacedToken

variable {text : List Char} {d e : Decoration} {t u v : PlacedToken}

/-! ## Places of tokens -/

/-- Where the token starts. -/
def first (t : PlacedToken) : Place :=
  ⟨t.line, t.start⟩

/-- Where the token ends. -/
def last (t : PlacedToken) : Place :=
  ⟨t.line, t.start + t.length⟩

/-- `u` starts on a later line than `t`, or on the same line where `t` ends or behind that. -/
def Before (t u : PlacedToken) : Prop :=
  t.line < u.line ∨ t.line = u.line ∧ t.start + t.length ≤ u.start

/-- The two tokens cover the same characters, one for a schema and one for an identifier. -/
def Coincide (t u : PlacedToken) : Prop :=
  t.first = u.first ∧ t.last = u.last ∧ t.type ≠ u.type

theorem Before.trans (h : t.Before u) (h' : u.Before v) : t.Before v := by
  unfold Before at *
  omega

instance : Trans Before Before Before :=
  ⟨Before.trans⟩

theorem before_iff : t.Before u ↔ t.last.AtMost u.first :=
  Iff.rfl

/-- A token that is not empty does not stand before one that starts where it does. -/
theorem not_before_of_first_eq (hfirst : t.first = u.first) (hlength : 0 < t.length) :
    ¬ t.Before u := by
  injection hfirst with hline hstart
  unfold Before
  omega

/-- The token of a marked token covers its characters, of which there is at least one, all on one
    line. -/
theorem ofDecoration?_eq_some_iff (h : byteLength text < wordSize) :
    ofDecoration? text d = some t ↔
      t.first = place text d.span.start ∧ t.last = place text d.span.stop ∧ 0 < t.length
        ∧ t.type = TokenType.ofKind d.kind ∧ t.isDefinition = d.isDefinition := by
  obtain ⟨line, start, length, type, isDefinition⟩ := t
  rw [ofDecoration?, toPlace_position h, toPlace_position h]
  generalize place text d.span.start = p
  generalize place text d.span.stop = q
  obtain ⟨pline, pcharacter⟩ := p
  obtain ⟨qline, qcharacter⟩ := q
  simp only [first, last, Place.mk.injEq, Option.ite_none_left_eq_some, Option.some.injEq,
    PlacedToken.mk.injEq]
  constructor
  · rintro ⟨hfits, rfl, rfl, rfl, rfl, rfl⟩
    exact ⟨⟨rfl, rfl⟩, ⟨by omega, by omega⟩, by omega, rfl, rfl⟩
  · rintro ⟨⟨rfl, rfl⟩, ⟨rfl, rfl⟩, hlength, rfl, rfl⟩
    exact ⟨by omega, rfl, rfl, by omega, rfl, rfl⟩

/-- Marked characters on one line, at least one of them, are a token. -/
theorem exists_ofDecoration? (h : byteLength text < wordSize)
    (hline : (place text d.span.start).line = (place text d.span.stop).line)
    (hbefore : (place text d.span.start).Before (place text d.span.stop)) :
    ∃ t, ofDecoration? text d = some t := by
  unfold Place.Before at hbefore
  rw [ofDecoration?, toPlace_position h, toPlace_position h, if_neg (by omega)]
  exact ⟨_, rfl⟩

/-- One string that is marked as an identifier and as something else gives two tokens at one
    place. -/
theorem coincide_of_span_eq (h : byteLength text < wordSize)
    (ht : ofDecoration? text d = some t) (hu : ofDecoration? text e = some u)
    (hspan : d.span = e.span) (hkinds : d.kind = .identifier ↔ e.kind ≠ .identifier) :
    t.Coincide u := by
  obtain ⟨hfirst, hlast, -, htype, -⟩ := (ofDecoration?_eq_some_iff h).1 ht
  obtain ⟨hfirst', hlast', -, htype', -⟩ := (ofDecoration?_eq_some_iff h).1 hu
  rw [Coincide, hfirst, hfirst', hlast, hlast', htype, htype', hspan]
  refine ⟨rfl, rfl, ?_⟩
  cases hd : d.kind <;> cases he : e.kind <;> simp_all [TokenType.ofKind]

/-! ## Distances -/

/-- Tokens in order are decoded to what they were. -/
theorem decodeFrom_encodeFrom {line start : Nat} {ts : List PlacedToken}
    (h : (⟨line, start⟩ :: ts.map first).Pairwise Place.AtMost) :
    SemanticToken.decodeFrom line start (encodeFrom line start ts) = ts := by
  induction ts generalizing line start with
  | nil => rfl
  | cons t ts ih =>
    obtain ⟨hall, hrest⟩ := List.pairwise_cons.1 h
    have hfirst : line < t.line ∨ line = t.line ∧ start ≤ t.start :=
      hall t.first List.mem_cons_self
    have hline : line + (t.line - line) = t.line := by omega
    -- a column is counted from the last token exactly on the line of that token
    have hcolumn : (if t.line - line = 0 then
          start + (if t.line = line then t.start - start else t.start)
        else if t.line = line then t.start - start else t.start) = t.start := by
      split <;> split <;> omega
    simp only [encodeFrom, SemanticToken.decodeFrom, hline, hcolumn, ih hrest]

end PlacedToken

namespace Analysis

variable {style : TooltipStyle} {text : String} {p : ParsedDocument}

/-- The marked tokens of a text are sorted by their starts. -/
theorem decorations_sorted (style : TooltipStyle) (text : String) :
    (ofText style text).decorations.Pairwise fun d e => d.span.start ≤ e.span.start := by
  rcases ofText_cases style text with ⟨p, -, heq⟩ | ⟨problem, heq⟩
  · rw [heq]
    exact Decoration.ofParsed_sorted p _
  · rw [heq]
    exact .nil

/-- A text that was read is so small that its places fit in words. -/
theorem byteLength_lt_of_read (h : ParsedDocument.read .standard text.toList = .ok p) :
    byteLength text.toList < wordSize := by
  have hsize : byteLength text.toList ≤ 536870912 :=
    (read_eq_ok_iff.1 (ParsedDocument.of_read h).1).1 _ rfl
  unfold wordSize
  omega

/-- The tokens of a text start one at or behind another. -/
theorem placedTokens_sorted (style : TooltipStyle) (text : String) :
    ((ofText style text).placedTokens.map PlacedToken.first).Pairwise Place.AtMost := by
  rw [List.pairwise_map, placedTokens, text_ofText, List.pairwise_filterMap]
  refine (decorations_sorted style text).imp_of_mem fun {d e} hd _ hle t ht u hu => ?_
  -- only a text that was read has marked tokens, and its places are told as they are
  obtain ⟨p, hread⟩ := exists_read_of_mem hd
  have hsize := byteLength_lt_of_read hread
  rw [((PlacedToken.ofDecoration?_eq_some_iff hsize).1 ht).1,
    ((PlacedToken.ofDecoration?_eq_some_iff hsize).1 hu).1]
  exact place_mono _ hle

/-- The first distance is counted from the start of the text. -/
theorem zero_cons_placedTokens_sorted (style : TooltipStyle) (text : String) :
    (⟨0, 0⟩ :: (ofText style text).placedTokens.map PlacedToken.first).Pairwise
      Place.AtMost :=
  List.pairwise_cons.2 ⟨fun q _ => Place.zero_atMost q, placedTokens_sorted style text⟩

/-- The semantic tokens of a text are decoded to its tokens. -/
theorem decode_semanticTokens (style : TooltipStyle) (text : String) :
    SemanticToken.decode (ofText style text).semanticTokens = (ofText style text).placedTokens :=
  PlacedToken.decodeFrom_encodeFrom (zero_cons_placedTokens_sorted style text)

/-! ## Tokens one behind another -/

/-- The tokens of a document that was read come from the strings that are marked. -/
theorem mem_placedTokens_iff (h : ParsedDocument.read .standard text.toList = .ok p)
    {t : PlacedToken} :
    t ∈ (ofText style text).placedTokens
      ↔ ∃ d ∈ Decoration.ofParsed p (IdentifierGraph.ofParsed p),
        PlacedToken.ofDecoration? text.toList d = some t := by
  rw [placedTokens, text_ofText, decorations_of_read style h, List.mem_filterMap]

/-- Of two tokens the later one stands behind the earlier one, or both stand on one string that
    defines a schema and names a node. -/
theorem placedTokens_pairwise (style : TooltipStyle)
    (h : ParsedDocument.read .standard text.toList = .ok p) :
    (ofText style text).placedTokens.Pairwise fun t u => t.Before u
      ∨ t.Coincide u ∧ ∃ m ∈ p.schemaMembers,
        (IdentifierGraph.ofParsed p).has m.1.name = true
          ∧ t.first = place text.toList m.1.content.start
          ∧ t.last = place text.toList m.1.content.stop := by
  rw [placedTokens, text_ofText, decorations_of_read style h, List.pairwise_filterMap]
  have hsorted := Decoration.ofParsed_sorted p (IdentifierGraph.ofParsed p)
  have hnodup := Decoration.nodup_ofParsed (g := IdentifierGraph.ofParsed p) h
  have hsize := byteLength_lt_of_read h
  refine (hsorted.and hnodup).imp_of_mem fun {d e} hd he ⟨hle, hne⟩ t ht u hu => ?_
  obtain ⟨hfirst, hlast, -⟩ := (PlacedToken.ofDecoration?_eq_some_iff hsize).1 ht
  rcases Decoration.token_eq_or_before h hd he with ⟨token, -, hmarks, hmarks'⟩ | hlt | hlt
  · -- different marks of one string
    obtain ⟨⟨⟨m, hm, rfl⟩, hhas⟩, hkinds⟩ := (hmarks.eq_or_shared hmarks').resolve_left hne
    have hcoincide := PlacedToken.coincide_of_span_eq hsize ht hu
      (hmarks.span.trans hmarks'.span.symm) hkinds
    rw [hmarks.span] at hfirst hlast
    exact .inr ⟨hcoincide, m, hm, hhas, hfirst, hlast⟩
  · refine .inl (PlacedToken.before_iff.2 ?_)
    rw [hlast, ((PlacedToken.ofDecoration?_eq_some_iff hsize).1 hu).1]
    exact place_mono _ (Nat.le_of_lt hlt)
  · have := Decoration.start_le_stop h he
    omega

/-- A key that names a node is not empty, and so ends behind its start. -/
theorem key_place_before (h : ParsedDocument.read .standard text.toList = .ok p)
    {m : Key × Tree} (hm : m ∈ p.schemaMembers)
    (hhas : (IdentifierGraph.ofParsed p).has m.1.name = true) :
    (place text.toList m.1.content.start).Before
      (place text.toList m.1.content.stop) := by
  obtain ⟨schemas, hschemas, hmembers, -⟩ := p.schemas_of_read h
  have hkey := Tree.mem_keys_of_get? hschemas (Tree.mem_keys_of_members? hmembers hm)
  obtain ⟨k, cs, hcut, hchars, hname⟩ :=
    content_cut_of_read (ParsedDocument.of_read h).1 hkey
  refine hcut.place_before (hchars.ne_nil ?_)
  rintro rfl
  exact IdentifierGraph.ne_empty_of_mem (IdentifierGraph.has_ofEntries.1 hhas) hname

/-- A key of the schema table that names a node gives two tokens at one place if it lies on one
    line. -/
theorem exists_coincide (h : ParsedDocument.read .standard text.toList = .ok p) {m : Key × Tree}
    (hm : m ∈ p.schemaMembers) (hhas : (IdentifierGraph.ofParsed p).has m.1.name = true)
    (hline : (place text.toList m.1.content.start).line
      = (place text.toList m.1.content.stop).line) :
    ∃ t ∈ (ofText style text).placedTokens, ∃ u ∈ (ofText style text).placedTokens,
      t.Coincide u ∧ 0 < t.length ∧ 0 < u.length := by
  have hshared : Decoration.IsShared p (IdentifierGraph.ofParsed p) m.1.token :=
    ⟨⟨m, hm, rfl⟩, hhas⟩
  have htoken := ParsedDocument.schemaToken_mem hm
  have hsize := byteLength_lt_of_read h
  have hplaced : ∀ d, Decoration.Marks p (IdentifierGraph.ofParsed p) m.1.token d →
      ∃ t ∈ (ofText style text).placedTokens,
        PlacedToken.ofDecoration? text.toList d = some t := by
    intro d hmarks
    have hspan : d.span = m.1.content := hmarks.span
    have hd := Decoration.mem_ofParsed_iff.2 ⟨_, htoken, hmarks⟩
    have hbefore := key_place_before h hm hhas
    rw [← hspan] at hline hbefore
    obtain ⟨t, ht⟩ := PlacedToken.exists_ofDecoration? hsize hline hbefore
    exact ⟨t, (mem_placedTokens_iff h).2 ⟨d, hd, ht⟩, ht⟩
  obtain ⟨t, htmem, ht⟩ := hplaced _ hshared.marks.1
  obtain ⟨u, humem, hu⟩ := hplaced _ hshared.marks.2
  refine ⟨t, htmem, u, humem, PlacedToken.coincide_of_span_eq hsize ht hu rfl (by simp),
    ?_, ?_⟩
  · exact ((PlacedToken.ofDecoration?_eq_some_iff hsize).1 ht).2.2.1
  · exact ((PlacedToken.ofDecoration?_eq_some_iff hsize).1 hu).2.2.1

/-- Tokens do not stand one behind another if a key of the schema table on one line names a
    node. -/
theorem not_pairwise_before (h : ParsedDocument.read .standard text.toList = .ok p)
    {m : Key × Tree} (hm : m ∈ p.schemaMembers)
    (hhas : (IdentifierGraph.ofParsed p).has m.1.name = true)
    (hline : (place text.toList m.1.content.start).line
      = (place text.toList m.1.content.stop).line) :
    ¬ (ofText style text).placedTokens.Pairwise PlacedToken.Before := by
  intro hpairwise
  obtain ⟨t, ht, u, hu, ⟨hfirst, -, htype⟩, hlength, hlength'⟩ := exists_coincide h hm hhas hline
  rcases eq_or_rel_of_pairwise hpairwise ht hu with rfl | hbefore | hbefore
  · exact htype rfl
  · exact PlacedToken.not_before_of_first_eq hfirst hlength hbefore
  · exact PlacedToken.not_before_of_first_eq hfirst.symm hlength' hbefore

/-- The semantic tokens of a text stand one behind another if and only if no key of the schema table
    that lies on one line is the identifier of a node. Tokens that do not stand one behind another
    cover the same characters, one for a schema and one for an identifier. -/
theorem semanticTokens_apart_iff (style : TooltipStyle) (text : String) :
    ((SemanticToken.decode (ofText style text).semanticTokens).IsChain PlacedToken.Before
        ↔ ∀ p, (ofText style text).parsed = some p → ∀ m ∈ p.schemaMembers,
          (ofText style text).graph.has m.1.name = true →
          (position text.toList m.1.content.start).line
            ≠ (position text.toList m.1.content.stop).line)
      ∧ (SemanticToken.decode (ofText style text).semanticTokens).IsChain
          fun t u => t.Before u ∨ t.Coincide u := by
  rw [decode_semanticTokens, List.isChain_iff_pairwise]
  rcases ofText_cases style text with ⟨p, hread, hofText⟩ | ⟨problem, hofText⟩
  · have hpairwise := placedTokens_pairwise style hread
    refine ⟨⟨fun hbefore q hq m hm hhas hline => ?_, fun hapart => ?_⟩, ?_⟩
    · obtain ⟨hread, hofText⟩ := of_parsed_eq_some hq
      rw [hofText] at hhas
      rw [line_position_eq_iff (byteLength_lt_of_read hread)] at hline
      exact not_pairwise_before hread hm hhas hline hbefore
    · refine hpairwise.imp fun {t u} hor => hor.resolve_right ?_
      rintro ⟨-, m, hm, hhas, hfirst, hlast⟩
      rw [hofText] at hapart
      -- a token lies on one line
      have hline : t.first.line = t.last.line := rfl
      rw [hfirst, hlast, ← line_position_eq_iff (byteLength_lt_of_read hread)] at hline
      exact hapart p rfl m hm hhas hline
    · exact (hpairwise.imp fun hor => hor.imp_right And.left).isChain
  · have hnone : (ofText style text).placedTokens = [] := by
      rw [hofText]
      rfl
    rw [hnone, hofText]
    refine ⟨⟨fun _ q hq => ?_, fun _ => .nil⟩, .nil⟩
    cases hq

/-- The two tokens of a name that a schema and a node share. -/
theorem not_forall_semanticTokens_apart :
    ¬ ∀ (style : TooltipStyle) (text : String),
      (SemanticToken.decode (ofText style text).semanticTokens).IsChain PlacedToken.Before := by
  intro hall
  have hchain := hall .summary (String.ofList Decoration.sharedName)
  rw [decode_semanticTokens, List.isChain_iff_pairwise] at hchain
  obtain ⟨p, m, hread, hmembers, htoken, -, hhas, -⟩ := Decoration.exists_read_sharedName
  have hm : m ∈ p.schemaMembers := hmembers ▸ List.mem_singleton.2 rfl
  have hname : m.1.name = "w" := congrArg StringToken.text htoken
  have hspan : m.1.content = ⟨67, 68⟩ := congrArg StringToken.span htoken
  rw [← String.toList_ofList (l := Decoration.sharedName)] at hread
  refine not_pairwise_before hread hm (hname ▸ hhas) ?_ hchain
  rw [hspan, String.toList_ofList]
  decide +kernel

end Analysis

end BimEditor
