/-
  BimEditor.Analysis.Folding

  The line ranges that an editor can fold, from the current text rather than from its last
  analysis, so that they stay while the text does not parse.
-/
import BimEditor.Scan.Region
import BimEditor.Text.Position

namespace BimEditor

open BimEditor.Scan BimEditor.Text

/-- The least number of elements of an array that folds, unless the settings say otherwise. -/
def defaultLeastElements : Nat := 10

/-- The first and the last line of a fold. -/
structure FoldingRange where
  startLine : UInt32
  endLine : UInt32
deriving DecidableEq, Repr, Inhabited

namespace FoldingRange

/-- The lines of a region, from its opening to its closing bracket, if there are several. -/
def ofRegion? (text : List Char) (region : Region) : Option FoldingRange :=
  let first := (position text region.span.start).line
  let last := (position text (region.span.stop - 1)).line
  if last ≤ first then none else some ⟨first, last⟩

/-- All regions of a text, in the order of their opening brackets. -/
def regions (least : Nat) (text : List Char) : List Region :=
  ((schemasRegion text).toList ++ arrayRegions least text).mergeSort
    fun a b => a.span.start ≤ b.span.start

/-- The folding ranges of a text, in document order. -/
def ofText (least : Nat) (text : List Char) : List FoldingRange :=
  (regions least text).filterMap (ofRegion? text)

end FoldingRange

end BimEditor
