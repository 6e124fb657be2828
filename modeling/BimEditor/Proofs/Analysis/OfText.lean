/-
  BimEditor.Proofs.Analysis.OfText

  The analysis of a text, in the two cases that there are: the text is read as a document, and all
  that is known comes from that document, or it has a problem, and nothing is known but the problem
  (`ofText_cases`). Either way the analysis keeps its text and the style it was asked for.
-/
import BimEditor.Analysis.Basic

namespace BimEditor.Analysis

variable {p : ParsedDocument} {text : String}

theorem text_ofText (style : TooltipStyle) (text : String) : (ofText style text).text = text := by
  rw [ofText]
  split <;> rfl

theorem style_ofText (style : TooltipStyle) (text : String) :
    (ofText style text).style = style := by
  rw [ofText]
  split <;> rfl

/-- A text is analysed as the document that it is read as, or it has a problem. -/
theorem ofText_cases (style : TooltipStyle) (text : String) :
    (∃ p, ParsedDocument.read .standard text.toList = .ok p
        ∧ ofText style text = ofParsed style text p)
      ∨ ∃ problem, ofText style text = ofProblem style text problem := by
  rw [ofText]
  split
  · next p hread => exact .inl ⟨p, hread, rfl⟩
  · next problem _ => exact .inr ⟨problem, rfl⟩

theorem ofText_of_read (style : TooltipStyle)
    (h : ParsedDocument.read .standard text.toList = .ok p) :
    ofText style text = ofParsed style text p := by
  rw [ofText, h]

theorem decorations_of_read (style : TooltipStyle)
    (h : ParsedDocument.read .standard text.toList = .ok p) :
    (ofText style text).decorations = Decoration.ofParsed p (IdentifierGraph.ofParsed p) := by
  rw [ofText_of_read style h]
  rfl

/-- Only a text that was read has a document. -/
theorem of_parsed_eq_some {style : TooltipStyle} (h : (ofText style text).parsed = some p) :
    ParsedDocument.read .standard text.toList = .ok p
      ∧ ofText style text = ofParsed style text p := by
  rcases ofText_cases style text with ⟨q, hread, heq⟩ | ⟨problem, heq⟩
  · rw [heq] at h
    obtain rfl := Option.some.inj h
    exact ⟨hread, heq⟩
  · rw [heq] at h
    cases h

/-- Only a text that was read has marked tokens. -/
theorem exists_read_of_mem {style : TooltipStyle} {d : Decoration}
    (h : d ∈ (ofText style text).decorations) :
    ∃ p, ParsedDocument.read .standard text.toList = .ok p := by
  rcases ofText_cases style text with ⟨p, hread, -⟩ | ⟨problem, heq⟩
  · exact ⟨p, hread⟩
  · rw [heq] at h
    cases h

/-- Only a text that was read has identifiers. -/
theorem exists_read_of_has {style : TooltipStyle} {x : String}
    (h : (ofText style text).graph.has x = true) :
    ∃ p, ParsedDocument.read .standard text.toList = .ok p := by
  rcases ofText_cases style text with ⟨p, hread, -⟩ | ⟨problem, heq⟩
  · exact ⟨p, hread⟩
  · rw [heq] at h
    cases h

end BimEditor.Analysis
