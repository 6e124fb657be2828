/-
  BimEditor.Schema.Tooltip

  Schemas described in Markdown, in two styles: all that is known of the type, a line each, or a
  definition in plain words.
-/
import BimEditor.Schema.Basic
import BimEditor.Text.Blank

namespace BimEditor

open BimEditor.Text

/-- How schemas are described. -/
inductive TooltipStyle where
  | detailed
  | summary
deriving DecidableEq, Repr, Inhabited

/-- The name of a style in settings. -/
def TooltipStyle.name : TooltipStyle → String
  | .detailed => "detailed"
  | .summary => "summary"

/-! ## Namespaces -/

/-- The segments of a name between its double colons. -/
def segments : List Char → List (List Char)
  | [] => [[]]
  | ':' :: ':' :: s => [] :: segments s
  | c :: s =>
    match segments s with
    | [] => [[c]]
    | first :: others => (c :: first) :: others

/-- What comes before the first double colon. -/
def untilSeparator : List Char → List Char
  | [] => []
  | ':' :: ':' :: _ => []
  | c :: s => c :: untilSeparator s

/-- What comes behind the last double colon of a name. -/
def lastSegment (name : String) : List Char :=
  (untilSeparator name.toList.reverse).reverse

/-- A segment between backquotes, trimmed; a dash for an empty one. -/
def segmentText (segment : List Char) : String :=
  let trimmed := trim segment
  "`" ++ (if trimmed.isEmpty then "-" else String.ofList trimmed) ++ "`"

/-- The segments of a name with arrows between them, if it has several. -/
def breadcrumb? (name : String) : Option String :=
  match segments name.toList with
  | [_] => none
  | parts => some (" → ".intercalate (parts.map segmentText))

namespace TypeDescription

/-! ## Labels -/

/-- A bound in a label; a star where there is none. -/
def boundLabel (bound : Option UInt64) : String :=
  match bound with
  | some n => toString n.toNat
  | none => "*"

/-- A type in a few words: its tag, or the shape of an array with its element type. -/
def label : TypeDescription → String
  | .array _ none none element => "Array of " ++ label element
  | .array _ min max element =>
    "Array[" ++ boundLabel min ++ ".." ++ boundLabel max ++ "] of " ++ label element
  | t => t.tag

/-! ## The detailed style -/

/-- A line for each member, with the members of a nested object below it. -/
def memberLines (indent : String) : List (String × TypeDescription) → List String
  | [] => []
  | (name, .object _ members) :: others =>
    (indent ++ "- `" ++ name ++ "`: Object")
      :: memberLines (indent ++ "  ") members ++ memberLines indent others
  | (name, t) :: others =>
    (indent ++ "- `" ++ name ++ "`: " ++ label t) :: memberLines indent others

/-- What the restrictions of a type say. -/
def restrictionLines : TypeDescription → List String
  | .relation _ (some target) => if target.isEmpty then [] else ["**Relation:** `" ++ target ++ "`"]
  | .enumeration _ (some options) => ["**Options:** [" ++ ", ".intercalate options ++ "]"]
  | .object _ members => memberLines "" members
  | .array notes min max element => ["- " ++ label (.array notes min max element)]
  | _ => []

/-- What the remarks on a type say. -/
def noteLines (notes : Annotations) : List String :=
  (match notes.quantityKind with
    | some quantity => if quantity.isEmpty then [] else ["**Quantity:** " ++ quantity]
    | none => [])
  ++ if notes.inherits.isEmpty then []
    else ["**Inherits:** `" ++ ", ".intercalate notes.inherits ++ "`"]

/-- The lines of the detailed tooltip for a schema of that name. -/
def detailedLines (name : String) (t : TypeDescription) : List String :=
  ["**Schema:** `" ++ name ++ "`"]
    ++ ((breadcrumb? name).map fun crumbs => "**Namespace:** " ++ crumbs).toList
    ++ ["**Type:** " ++ t.tag] ++ noteLines t.notes ++ restrictionLines t

/-- The detailed tooltip for a schema of that name. -/
def detailed (name : String) (t : TypeDescription) : String :=
  "\n".intercalate (detailedLines name t)

/-! ## The summary style -/

/-- A primitive type in plain words. -/
def primitiveWords : Primitive → String
  | .string => "string"
  | .boolean => "boolean"
  | .integer => "integer number"
  | .real => "real number"
  | .dateTime => "date and time"

mutual
/-- A type in plain words, with the members of an object on lines of their own. -/
def words (indent : String) : TypeDescription → String
  | .primitive _ type => primitiveWords type
  | .enumeration _ (some options) => "one of: " ++ ", ".intercalate options
  | .enumeration _ none => "enumeration"
  | .bareArray _ => "array"
  | .array _ _ _ element => "array of " ++ words (indent ++ "  ") element
  | .bareObject _ => "object"
  | .object _ [] => "empty object"
  | .object _ members => "object with:\n" ++ "\n".intercalate (memberWords (indent ++ "  ") members)
  | .relation _ target =>
    match target with
    | some kind => if kind.isEmpty then "relation" else "relation to " ++ kind
    | none => "relation"
  | .unrecognized _ _ => "unknown"

/-- The members of an object in plain words. -/
def memberWords (indent : String) : List (String × TypeDescription) → List String
  | [] => []
  | (name, t) :: others => (indent ++ name ++ ": " ++ words indent t) :: memberWords indent others
end

/-- The summary tooltip for a schema of that name. -/
def summary (name : String) (t : TypeDescription) : String :=
  "**Schema:** `" ++ name ++ "`\n\n"
    ++ (match breadcrumb? name with
        | some crumbs => "**Namespace:** " ++ crumbs ++ "\n\n"
        | none => "")
    ++ "**Type Definition:**\n```\n" ++ words "" t ++ "\n```"

/-- The tooltip for a schema of that name. -/
def tooltip (style : TooltipStyle) (name : String) (t : TypeDescription) : String :=
  match style with
  | .detailed => detailed name t
  | .summary => summary name t

end TypeDescription

end BimEditor
