/-
  BimEditor.Workspace.Settings

  What a user can set. Settings come as JSON, possibly inside a section of their own; what is
  missing has its default. Settings that cannot be read are replaced by the defaults as a whole.
-/
import BimEditor.Analysis.Folding
import BimEditor.Json.Record
import BimEditor.Schema.Tooltip

namespace BimEditor

open BimEditor.Json

/-- Bytes of a megabyte. -/
def megabyte : Nat := 1048576

/-- The settings of a session. -/
structure Settings where
  /-- The least number of elements of an array that folds. -/
  leastElements : Nat := defaultLeastElements
  style : TooltipStyle := .detailed
  /-- How long an edited document is left alone before it is analysed, in milliseconds. -/
  debounce : Nat := 100
  /-- How many documents are held. -/
  maxDocuments : Nat := 1000
  /-- How many bytes a document may take. -/
  maxDocumentSize : Nat := 500 * megabyte
deriving DecidableEq, Repr, Inhabited

/-- Why settings are not read. -/
inductive SettingsError where
  /-- Something else than an object stands where the settings should. -/
  | notAnObject (found : String)
  | invalid
deriving DecidableEq, Repr

namespace Settings

/-- The name of the section that settings may be wrapped in. -/
def sectionName : String := "ifcx"

/-- What kind of JSON value this is. -/
def kindName : Value → String
  | .null => "null"
  | .bool _ => "boolean"
  | .number _ => "number"
  | .string _ => "string"
  | .array _ => "array"
  | .object _ => "object"

/-- The wording of an error, where it has one. -/
def errorMessage? : SettingsError → Option String
  | .notAnObject found => some ("settings must be a JSON object, got " ++ found)
  | .invalid => none

/-! ## Reading -/

/-- The style of that name. -/
def styleOfName? : String → Option TooltipStyle
  | "detailed" => some .detailed
  | "summary" => some .summary
  | _ => none

/-- Read a style: its name, or an object with nothing but the name and `null`. -/
def readStyle {v : Value} (w : Value) (_ : sizeOf w < sizeOf v) : Option TooltipStyle :=
  match w with
  | .string name => styleOfName? name
  | .object [(name, .null)] => styleOfName? name
  | _ => none

/-- Read a natural number that fits 64 bits. -/
def readCount {v : Value} (w : Value) (h : sizeOf w < sizeOf v) : Option Nat :=
  (readUInt64 w h).map UInt64.toNat

/-- Read the settings for folding arrays. -/
def readLeastElements {v : Value} (w : Value) (_ : sizeOf w < sizeOf v) : Option Nat := do
  let field ← w.record? ["minElements"]
  defaulted (field "minElements") defaultLeastElements readCount

/-- The settings in a section, in order. -/
def fieldNames : List String :=
  ["autoFoldArray", "tooltipStyle", "debounceMs", "maxDocuments", "maxDocumentSize"]

/-- The settings that a section holds. -/
def ofSection? (v : Value) : Option Settings := do
  let field ← v.record? fieldNames
  let usual : Settings := {}
  let leastElements ← defaulted (field "autoFoldArray") usual.leastElements readLeastElements
  let style ← defaulted (field "tooltipStyle") usual.style readStyle
  let debounce ← defaulted (field "debounceMs") usual.debounce readCount
  let maxDocuments ← defaulted (field "maxDocuments") usual.maxDocuments readCount
  let maxDocumentSize ← defaulted (field "maxDocumentSize") usual.maxDocumentSize readCount
  return { leastElements, style, debounce, maxDocuments, maxDocumentSize }

/-- Read a section: `null` stands for the defaults. -/
def readSection : Value → Except SettingsError Settings
  | .null => .ok {}
  | .object members =>
    match ofSection? (.object members) with
    | some s => .ok s
    | none => .error .invalid
  | v => .error (.notAnObject (kindName v))

/-- Read settings, which may be wrapped in a section. -/
def read : Value → Except SettingsError Settings
  | .object members =>
    readSection ((Keyed.get? sectionName members).getD (.object members))
  | v => readSection v

/-- Read settings, with the defaults for those that cannot be read. -/
def readOrDefault (v : Value) : Settings :=
  match read v with
  | .ok s => s
  | .error _ => {}

/-! ## Writing -/

/-- The settings as a value. -/
def toValue (s : Settings) : Value :=
  .object [("autoFoldArray", .object [("minElements", .nat s.leastElements)]),
    ("tooltipStyle", .string s.style.name), ("debounceMs", .nat s.debounce),
    ("maxDocuments", .nat s.maxDocuments), ("maxDocumentSize", .nat s.maxDocumentSize)]

end Settings

end BimEditor
