/-
  BimEditor.Json.Value

  Plain JSON values, and lists of named entries in which each name stands once: a repeated name
  keeps its first place and takes its last value.
-/
import BimEditor.Json.Number

namespace BimEditor.Json

/-! ## Keyed lists -/

/-- Entries with a name, in order. -/
abbrev Keyed (α : Type) := List (String × α)

namespace Keyed

variable {α β : Type}

/-- The first entry of that name. -/
def get? (name : String) (entries : Keyed α) : Option α :=
  (entries.find? fun entry => entry.1 == name).map (·.2)

/-- Some entry has that name. -/
def has (name : String) (entries : Keyed α) : Bool :=
  entries.any fun entry => entry.1 == name

/-- The names, in order. -/
def names (entries : Keyed α) : List String :=
  entries.map (·.1)

/-- Give `name` a value: in the place it has, or behind all others. -/
def put (name : String) (value : α) : Keyed α → Keyed α
  | [] => [(name, value)]
  | entry :: rest =>
    if entry.1 = name then (name, value) :: rest else entry :: put name value rest

/-- Change the value of `name`, if it has one. -/
def adjust (name : String) (change : α → α) : Keyed α → Keyed α
  | [] => []
  | entry :: rest =>
    if entry.1 = name then (entry.1, change entry.2) :: rest else entry :: adjust name change rest

/-- The entries put one after another into an empty list. -/
def collect (entries : List (String × α)) : Keyed α :=
  entries.foldl (fun done entry => done.put entry.1 entry.2) []

theorem has_iff_mem_names {name : String} {entries : Keyed α} :
    entries.has name = true ↔ name ∈ entries.names := by
  simp [has, names]

/-- A name that was put has the value that was put. -/
theorem get?_put_self (name : String) (value : α) (entries : Keyed α) :
    (entries.put name value).get? name = some value := by
  induction entries with
  | nil => simp [put, get?]
  | cons entry rest ih =>
    by_cases h : entry.1 = name
    · simp [put, get?, h]
    · simpa [put, get?, h] using ih

/-- Putting a name leaves the values of all others. -/
theorem get?_put_of_ne {name other : String} (h : other ≠ name) (value : α) (entries : Keyed α) :
    (entries.put name value).get? other = entries.get? other := by
  induction entries with
  | nil => simp [put, get?, h.symm]
  | cons entry rest ih =>
    by_cases hn : entry.1 = name
    · subst hn
      simp [put, get?, h.symm]
    · by_cases ho : entry.1 = other
      · simp [put, get?, ho, h]
      · simpa [put, get?, hn, ho] using ih

/-- Changing a value leaves all names in their places. -/
@[simp]
theorem names_adjust (name : String) (change : α → α) (entries : Keyed α) :
    (entries.adjust name change).names = entries.names := by
  induction entries with
  | nil => rfl
  | cons entry rest ih =>
    by_cases h : entry.1 = name
    · simp [adjust, names, h]
    · simpa [adjust, names, h] using ih

end Keyed

/-! ## Values -/

/-- A JSON value without parts. -/
inductive Scalar where
  | null
  | bool (b : Bool)
  | number (n : Number)
  | string (s : String)
deriving DecidableEq, Repr, Inhabited

/-- A JSON value. Reading never makes an object in which two members share a name. -/
inductive Value where
  | scalar (s : Scalar)
  | array (items : List Value)
  | object (members : List (String × Value))
deriving Inhabited

namespace Value

@[match_pattern]
abbrev null : Value := .scalar .null

@[match_pattern]
abbrev bool (b : Bool) : Value := .scalar (.bool b)

@[match_pattern]
abbrev number (n : Number) : Value := .scalar (.number n)

@[match_pattern]
abbrev string (s : String) : Value := .scalar (.string s)

/-- A natural number as a value, with the largest integer for those that do not fit. -/
def nat (n : Nat) : Value :=
  .number (.integer (WideInt.ofNat n))

/-- The text of a string value. -/
def string? : Value → Option String
  | .string s => some s
  | _ => none

/-- The items of an array. -/
def items? : Value → Option (List Value)
  | .array items => some items
  | _ => none

/-- The members of an object. -/
def members? : Value → Option (Keyed Value)
  | .object members => some members
  | _ => none

/-- The member of that name, of an object that has one. -/
def member? (name : String) (v : Value) : Option Value :=
  v.members?.bind (Keyed.get? name)

/-- The value is `null`. -/
def isNull : Value → Bool
  | .null => true
  | _ => false

/-! ## Equality -/

mutual
/-- Equality of two values. -/
def decEq : (v w : Value) → Decidable (v = w)
  | .scalar s, .scalar t =>
    if h : s = t then isTrue (by rw [h]) else isFalse (by simpa using h)
  | .array vs, .array ws =>
    match decEqItems vs ws with
    | isTrue h => isTrue (by rw [h])
    | isFalse h => isFalse (by simpa using h)
  | .object ms, .object ns =>
    match decEqMembers ms ns with
    | isTrue h => isTrue (by rw [h])
    | isFalse h => isFalse (by simpa using h)
  | .scalar _, .array _ => isFalse (by simp)
  | .scalar _, .object _ => isFalse (by simp)
  | .array _, .scalar _ => isFalse (by simp)
  | .array _, .object _ => isFalse (by simp)
  | .object _, .scalar _ => isFalse (by simp)
  | .object _, .array _ => isFalse (by simp)

/-- Equality of two lists of values. -/
def decEqItems : (vs ws : List Value) → Decidable (vs = ws)
  | [], [] => isTrue rfl
  | [], _ :: _ => isFalse (by simp)
  | _ :: _, [] => isFalse (by simp)
  | v :: vs, w :: ws =>
    match decEq v w, decEqItems vs ws with
    | isTrue h, isTrue hs => isTrue (by rw [h, hs])
    | isFalse h, _ => isFalse fun e => h (List.cons.inj e).1
    | _, isFalse hs => isFalse fun e => hs (List.cons.inj e).2

/-- Equality of two lists of members. -/
def decEqMembers : (ms ns : List (String × Value)) → Decidable (ms = ns)
  | [], [] => isTrue rfl
  | [], _ :: _ => isFalse (by simp)
  | _ :: _, [] => isFalse (by simp)
  | (k, v) :: ms, (l, w) :: ns =>
    match decEq v w, decEqMembers ms ns with
    | isTrue h, isTrue hs =>
      if hk : k = l then isTrue (by rw [h, hs, hk])
      else isFalse fun e => hk (Prod.mk.inj (List.cons.inj e).1).1
    | isFalse h, _ => isFalse fun e => h (Prod.mk.inj (List.cons.inj e).1).2
    | _, isFalse hs => isFalse fun e => hs (List.cons.inj e).2
end

instance : DecidableEq Value := decEq

end Value

end BimEditor.Json
