/-
  BimEditor.Proofs.Analysis.TokenEncoding

  Semantic tokens as an editor receives them. Every marked token that lies on one line and is not
  empty becomes a token, as long as its text is in code units (`placedTokens_eq_covered`). Tokens
  are in order, so a distance is never negative: computing the distances with subtractions that are
  checked gives the same ones (`encodeChecked?_eq_some`), and from the numbers that are sent an
  editor gets every token back (`decode_numbers_semanticTokens`).
-/
import BimEditor.Proofs.Analysis.TokenOrder

namespace BimEditor

open BimEditor.Json BimEditor.Text

/-! ## Distances that are checked -/

/-- The difference of two numbers, unless it would be negative. -/
def checkedSub? (a b : Nat) : Option Nat :=
  if b ≤ a then some (a - b) else none

theorem checkedSub?_eq_some {a b : Nat} (h : b ≤ a) : checkedSub? a b = some (a - b) :=
  if_pos h

namespace PlacedToken

variable {text : List Char} {d : Decoration}

/-- The distances between tokens, where the last token before them starts at `(line, start)`; none
    if a subtraction fails. -/
def encodeChecked? (line start : Nat) : List PlacedToken → Option (List SemanticToken)
  | [] => some []
  | t :: ts => do
    let deltaLine ← checkedSub? t.line line
    let deltaStart ← (if deltaLine = 0 then checkedSub? t.start start else some t.start)
    let rest ← encodeChecked? t.line t.start ts
    return ⟨deltaLine, deltaStart, t.length, t.type, t.isDefinition⟩ :: rest

/-- Between tokens in order no subtraction fails. -/
theorem encodeChecked?_eq_some {line start : Nat} {ts : List PlacedToken}
    (h : (⟨line, start⟩ :: ts.map first).Pairwise Place.AtMost) :
    encodeChecked? line start ts = some (encodeFrom line start ts) := by
  induction ts generalizing line start with
  | nil => rfl
  | cons t ts ih =>
    obtain ⟨hall, hrest⟩ := List.pairwise_cons.1 h
    have hfirst : line < t.line ∨ line = t.line ∧ start ≤ t.start :=
      hall t.first List.mem_cons_self
    have hline : checkedSub? t.line line = some (t.line - line) := checkedSub?_eq_some (by omega)
    -- columns are subtracted only on the line of the last token
    have hstart : (if t.line - line = 0 then checkedSub? t.start start else some t.start)
        = some (if t.line = line then t.start - start else t.start) := by
      rcases hfirst with hlt | ⟨heq, hle⟩
      · rw [if_neg (by omega), if_neg (by omega)]
      · rw [if_pos (by omega), if_pos heq.symm, checkedSub?_eq_some hle]
    rw [encodeChecked?, hline, Option.bind_eq_bind, Option.bind_some, hstart, Option.bind_eq_bind,
      Option.bind_some, ih hrest]
    rfl

/-! ## The text of a token -/

/-- The token of the text that is marked: on the line where that starts, from the column where it
    starts, and as long as it is in code units. Text on several lines has none, nor has no text. -/
def covered? (text : List Char) (d : Decoration) : Option PlacedToken :=
  let start := place text d.span.start
  let length := unitLength (slice d.span.start d.span.stop text)
  if start.line = (place text d.span.stop).line ∧ 0 < length then
    some ⟨start.line, start.character, length, TokenType.ofKind d.kind, d.isDefinition⟩
  else none

/-- The place of a marked token is where its text is. -/
theorem ofDecoration?_eq_covered? {piece : List Char} (hsize : byteLength text < wordSize)
    (h : Cut text d.span piece) : ofDecoration? text d = covered? text d := by
  rw [ofDecoration?, covered?, h.slice, toPlace_position hsize, toPlace_position hsize]
  by_cases hline : (place text d.span.stop).line = (place text d.span.start).line
  · have hstop := h.place_stop hline
    by_cases hpos : 0 < unitLength piece
    · rw [if_neg (by omega), if_pos ⟨hline.symm, hpos⟩, hstop, Nat.add_sub_cancel_left]
    · rw [if_pos (by omega), if_neg (fun hand => hpos hand.2)]
  · rw [if_pos (.inl hline), if_neg (fun hand => hline hand.1.symm)]

example : covered? ['"', '😀', 'b', '"'] ⟨⟨1, 6⟩, .identifier, "😀b", true⟩
    = some ⟨0, 1, 3, .identifier, true⟩ := by decide

end PlacedToken

/-! ## Numbers -/

namespace SemanticToken

/-- The tokens that a list of numbers stands for, five for each of them; none if there is no such
    token. -/
def ofNumbers? : List Nat → Option (List SemanticToken)
  | [] => some []
  | deltaLine :: deltaStart :: length :: index :: bits :: rest => do
    let type ← TokenType.all[index]?
    let ts ← ofNumbers? rest
    return ⟨deltaLine, deltaStart, length, type, bits % 2 == 1⟩ :: ts
  | _ => none

/-- The place of a token type in the legend leads back to it. -/
theorem getElem?_all_index (type : TokenType) : TokenType.all[type.index]? = some type := by
  cases type <;> rfl

theorem modifierBits_mod_two (t : SemanticToken) :
    (t.modifierBits % 2 == 1) = t.isDefinition := by
  unfold modifierBits
  cases t.isDefinition <;> rfl

/-- The numbers of tokens stand for these tokens. -/
theorem ofNumbers?_flatMap_numbers (ts : List SemanticToken) :
    ofNumbers? (ts.flatMap numbers) = some ts := by
  induction ts with
  | nil => rfl
  | cons t ts ih =>
    have hcons : (t :: ts).flatMap numbers
        = t.deltaLine :: t.deltaStart :: t.length :: t.type.index :: t.modifierBits
          :: ts.flatMap numbers := rfl
    rw [hcons, ofNumbers?, getElem?_all_index, ih, modifierBits_mod_two]
    rfl

end SemanticToken

/-! ## The tokens of a text -/

namespace Analysis

/-- A marked token is cut out of the text, whose places fit in words. -/
theorem cut_of_mem_decorations {style : TooltipStyle} {text : String} {d : Decoration}
    (hd : d ∈ (ofText style text).decorations) :
    byteLength text.toList < wordSize ∧ ∃ piece, Cut text.toList d.span piece := by
  obtain ⟨p, hread⟩ := exists_read_of_mem hd
  rw [decorations_of_read style hread] at hd
  obtain ⟨token, htoken, hmarks⟩ := Decoration.mem_ofParsed_iff.1 hd
  rw [hmarks.span]
  exact ⟨byteLength_lt_of_read hread,
    string_cut_of_read (ParsedDocument.of_read hread).1 htoken⟩

/-- The tokens of a text are those of its marked texts. -/
theorem placedTokens_eq_covered (style : TooltipStyle) (text : String) :
    (ofText style text).placedTokens
      = (ofText style text).decorations.filterMap (PlacedToken.covered? text.toList) := by
  rw [placedTokens, text_ofText]
  refine List.filterMap_congr fun d hd => ?_
  obtain ⟨hsize, piece, hcut⟩ := cut_of_mem_decorations hd
  exact PlacedToken.ofDecoration?_eq_covered? hsize hcut

/-- Marked tokens are sorted by their starts, and their ends have lines and columns that can be
    sent. No subtraction between their tokens fails, and the numbers that are sent give all tokens
    back: one for every marked text that is not empty and lies on one line, in the same order. -/
theorem decode_numbers_semanticTokens (style : TooltipStyle) (text : String) :
    ((ofText style text).decorations.Pairwise fun d e => d.span.start ≤ e.span.start)
      ∧ (∀ d ∈ (ofText style text).decorations, ∀ offset ∈ [d.span.start, d.span.stop],
        (place text.toList offset).line < wordSize
          ∧ (place text.toList offset).character < wordSize)
      ∧ PlacedToken.encodeChecked? 0 0 (ofText style text).placedTokens
        = some (ofText style text).semanticTokens
      ∧ (SemanticToken.ofNumbers?
          ((ofText style text).semanticTokens.flatMap SemanticToken.numbers)).map
            SemanticToken.decode
        = some ((ofText style text).decorations.filterMap
          (PlacedToken.covered? text.toList)) := by
  refine ⟨decorations_sorted style text, fun d hd offset _ => ?_, ?_, ?_⟩
  · exact place_fits (cut_of_mem_decorations hd).1 offset
  · exact PlacedToken.encodeChecked?_eq_some (zero_cons_placedTokens_sorted style text)
  · rw [SemanticToken.ofNumbers?_flatMap_numbers, Option.map_some, decode_semanticTokens,
      placedTokens_eq_covered]

/-- A name that a schema and a node share gives two tokens where the schema is defined, of which one
    is no definition. -/
example : ⟨0, 67, 1, .schema, true⟩ ∈ SemanticToken.decode
      (ofText .summary (String.ofList Decoration.sharedName)).semanticTokens
    ∧ ⟨0, 67, 1, .identifier, false⟩ ∈ SemanticToken.decode
      (ofText .summary (String.ofList Decoration.sharedName)).semanticTokens := by
  obtain ⟨p, m, hread, hmembers, htoken, -, hhas, hdefinition⟩ := Decoration.exists_read_sharedName
  have hm : m ∈ p.schemaMembers := hmembers ▸ List.mem_singleton.2 rfl
  have hstring := p.schemaToken_mem hm
  have hshared : Decoration.IsShared p (IdentifierGraph.ofParsed p) ⟨"w", ⟨67, 68⟩, .key⟩ :=
    ⟨⟨m, hm, htoken⟩, hhas⟩
  obtain ⟨hschema, hidentifier⟩ := hshared.marks
  rw [← String.toList_ofList (l := Decoration.sharedName)] at hread
  rw [htoken] at hstring
  rw [decode_semanticTokens, placedTokens_eq_covered, decorations_of_read .summary hread,
    String.toList_ofList, List.mem_filterMap, List.mem_filterMap]
  refine ⟨⟨_, Decoration.mem_ofParsed_iff.2 ⟨_, hstring, hschema⟩, by decide +kernel⟩,
    ⟨_, Decoration.mem_ofParsed_iff.2 ⟨_, hstring, hidentifier⟩, ?_⟩⟩
  rw [hdefinition]
  decide +kernel

end Analysis

end BimEditor
