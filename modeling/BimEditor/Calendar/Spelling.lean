/-
  BimEditor.Calendar.Spelling

  The spellings of a date and time that a document may use: the Internet profile of ISO 8601, the
  date of an e-mail header, and local dates and times with loosely spelled numbers. A spelling is
  read from left to right without going back.
-/
import BimEditor.Calendar.Date
import BimEditor.Numeric.Decimal
import BimEditor.Text.Blank

namespace BimEditor.Calendar

open BimEditor.Numeric BimEditor.Text

/-- A reader that takes a value off the front of a text, if it finds one. -/
abbrev Speller := StateT (List Char) Option

namespace Speller

/-! ## Pieces -/

/-- Give up. -/
def refuse {α : Type} : Speller α :=
  fun _ => none

/-- The text is used up. -/
def done : Speller Unit := fun s =>
  if s.isEmpty then some ((), []) else none

/-- One character that satisfies `p`. -/
def one (p : Char → Bool) : Speller Char
  | [] => none
  | c :: s => if p c then some (c, s) else none

/-- The given character. -/
def literal (c : Char) : Speller Unit := do
  let _ ← one (· == c)

/-- Any number of blanks. -/
def blanks : Speller Unit := fun s =>
  some ((), trimStart s)

/-- At least one blank. -/
def someBlanks : Speller Unit := do
  let _ ← one isBlank
  blanks

/-- As many digits as follow, but at least `least` and at most `most`. -/
def digitRun (least most : Nat) : Speller (List Char) := fun s =>
  let ds := (s.take most).takeWhile isDigit
  if ds.length < least then none else some (ds, s.drop ds.length)

/-- All digits that follow, but at least `least`. -/
def longDigitRun (least : Nat) : Speller (List Char) := fun s =>
  digitRun least s.length s

/-- The number spelled by a run of digits. -/
def number (least most : Nat) : Speller Nat := do
  return ofDigits (← digitRun least most)

/-- The character that comes next. -/
def peek : Speller (Option Char) := fun s =>
  some (s.head?, s)

/-- A point and digits, or nothing. -/
def secondFraction : Speller Unit := do
  if (← peek) == some '.' then
    literal '.'
    let _ ← longDigitRun 1

/-- Refuse a date that does not exist. -/
def existing (d : Date) : Speller Unit :=
  if d.isValid then pure () else refuse

/-- Refuse a time that does not exist. -/
def existingTime (t : Time) : Speller Unit :=
  if t.isValid then pure () else refuse

/-! ## Zones -/

/-- Two digits of hours, what stands between, and two digits of minutes: less than a day, with less
    than sixty minutes. The value is in minutes. -/
def zoneHours (between : Speller Unit) : Speller Nat := do
  let hours ← number 2 2
  between
  let minutes ← number 2 2
  if hours ≤ 23 && minutes ≤ 59 then return 60 * hours + minutes else refuse

/-- The minus sign of typography. -/
def minusSign : Char := Char.ofNat 0x2212

/-- A zone of the Internet profile: `Z`, or an offset with a colon. -/
def profileZone : Speller Unit := do
  if (← peek) == some 'Z' || (← peek) == some 'z' then
    let _ ← one fun _ => true
  else
    let _ ← one fun c => c == '+' || c == '-' || c == minusSign
    let _ ← zoneHours (literal ':')

/-- The names that a zone of a mail date may have, besides the single letters, and how many hours
    each is ahead of universal time. -/
def zoneNames : List (String × Int) :=
  [("gmt", 0), ("ut", 0), ("est", -5), ("edt", -4), ("cst", -6), ("cdt", -5), ("mst", -7),
   ("mdt", -6), ("pst", -8), ("pdt", -7)]

/-- A letter of ASCII. -/
def isLetter (c : Char) : Bool :=
  ('a' ≤ c && c ≤ 'z') || ('A' ≤ c && c ≤ 'Z')

/-- How many minutes the zone of a name, in lower case, is ahead of universal time: one of the known
    names, or any single letter but `j`, which says nothing about it. -/
def namedZone? (name : List Char) : Option Int :=
  match zoneNames.lookup (String.ofList name) with
  | some hours => some (60 * hours)
  | none => if name.length == 1 && name != ['j'] then some 0 else none

/-- An offset of four digits behind a sign, in minutes. -/
def signedZone : Speller Int := do
  let sign ← one fun c => c == '+' || c == '-'
  let minutes ← zoneHours (pure ())
  return if sign == '-' then -(minutes : Int) else minutes

/-- A zone of a mail date, a name or an offset of four digits: how many minutes it is ahead of
    universal time. -/
def mailZone : Speller Int := fun s =>
  let name := s.takeWhile isLetter
  if name.isEmpty then signedZone s
  else (namedZone? (name.map Char.toLower)).map fun ahead => (ahead, s.drop name.length)

/-! ## Names -/

/-- The place of a three-letter name, of either case, in a list of names. -/
def shortName (names : List String) : Speller Nat := fun s =>
  let name := String.ofList ((s.take 3).map Char.toLower)
  (names.findIdx? (· == name)).map fun i => (i, s.drop 3)

/-- The days of the week. -/
def weekdays : List String :=
  ["mon", "tue", "wed", "thu", "fri", "sat", "sun"]

/-- The months of the year. -/
def months : List String :=
  ["jan", "feb", "mar", "apr", "may", "jun", "jul", "aug", "sep", "oct", "nov", "dec"]

/-! ## Comments -/

/-- Where a walk over comments stands. -/
inductive CommentState where
  /-- Right behind the zone or a comment. -/
  | outside
  /-- Behind a blank outside of comments. -/
  | between
  /-- Inside a comment with that many more around it. -/
  | inside (depth : Nat)
  /-- The same, behind a backslash. -/
  | escaped (depth : Nat)
deriving DecidableEq, Repr

/-- The text holds nothing but comments in parentheses, with blanks before each of them. -/
def areComments : CommentState → List Char → Bool
  | .outside, [] => true
  | _, [] => false
  | .escaped depth, _ :: s => areComments (.inside depth) s
  | .inside depth, c :: s =>
    if c = '\\' then areComments (.escaped depth) s
    else if c = '(' then areComments (.inside (depth + 1)) s
    else if c = ')' then areComments (if depth = 0 then .outside else .inside (depth - 1)) s
    else areComments (.inside depth) s
  | _, c :: s =>
    if c = '(' then areComments (.inside 0) s
    else isBlank c && areComments .between s

/-- Comments up to the end. -/
def comments : Speller Unit := fun s =>
  if areComments .outside s then some ((), []) else none

/-! ## The spellings -/

/-- A date and time of the Internet profile: `2025-01-15T10:30:00Z`. -/
def profileDateTime : Speller Unit := do
  let year ← number 4 4
  literal '-'
  let month ← number 2 2
  literal '-'
  let day ← number 2 2
  let _ ← one fun c => c == 'T' || c == 't' || c == ' '
  let hour ← number 2 2
  literal ':'
  let minute ← number 2 2
  literal ':'
  let second ← number 2 2
  secondFraction
  profileZone
  done
  existing ⟨year, month, day⟩
  existingTime ⟨hour, minute, second⟩

/-- The day of the week that a mail date starts with, if it starts with one. -/
def mailWeekday : Speller (Option Nat) := do
  match shortName weekdays (← get) with
  | none => return none
  | some (weekday, rest) =>
    set rest
    literal ','
    return some weekday

/-- The year of a mail date: two digits stand for 1950 to 2049, three are counted from 1900. -/
def mailYear : Speller Int := do
  let ds ← longDigitRun 2
  let year := ofDigits ds
  return if ds.length = 2 then (if year < 50 then year + 2000 else year + 1900)
    else if ds.length = 3 then year + 1900
    else year

/-- The seconds of a mail date, which may be left out. -/
def mailSecond : Speller Nat := do
  match literal ':' (trimStart (← get)) with
  | none => return 0
  | some (_, rest) =>
    set rest
    number 2 2

/-- Refuse a moment that does not exist in universal time. -/
def existingMoment (d : Date) (t : Time) (ahead : Int) : Speller Unit :=
  if d.reaches (60 * t.hour + t.minute - ahead) then pure () else refuse

/-- The date and time of an e-mail header: `Wed, 15 Jan 2025 10:30:00 +0000`. -/
def mailDateTime : Speller Unit := do
  blanks
  let weekday ← mailWeekday
  blanks
  let day ← number 1 2
  someBlanks
  let month ← shortName months
  someBlanks
  let year ← mailYear
  someBlanks
  let hour ← number 2 2
  blanks
  literal ':'
  blanks
  let minute ← number 2 2
  let second ← mailSecond
  someBlanks
  let ahead ← mailZone
  comments
  let date : Date := ⟨year, month + 1, day⟩
  let time : Time := ⟨hour, minute, second⟩
  existing date
  existingTime time
  existingMoment date time ahead
  if weekday.all (· == date.weekday) then pure () else refuse

/-- A number with at most two digits, after any blanks. -/
def looseNumber : Speller Nat := do
  blanks
  number 1 2

/-- A year, after any blanks: up to four digits, or a sign and any number of them. -/
def looseYear : Speller Int := do
  blanks
  match ← peek with
  | some '-' =>
    literal '-'
    return -(ofDigits (← longDigitRun 1) : Int)
  | some '+' =>
    literal '+'
    return ofDigits (← longDigitRun 1)
  | _ => return (← number 1 4)

/-- A date with loosely spelled numbers: `2025-1-5`. -/
def looseDate : Speller Unit := do
  let year ← looseYear
  literal '-'
  let month ← looseNumber
  literal '-'
  let day ← looseNumber
  existing ⟨year, month, day⟩

/-- Hours and minutes with loosely spelled numbers. -/
def looseMinutes : Speller Unit := do
  let hour ← looseNumber
  literal ':'
  let minute ← looseNumber
  existingTime ⟨hour, minute, 0⟩

/-- Seconds with a fraction that may be left out. -/
def looseSeconds : Speller Unit := do
  literal ':'
  let second ← looseNumber
  existingTime ⟨0, 0, second⟩
  secondFraction

/-- The local spellings: a date alone, or a date and a time with or without seconds, divided by a
    `T` or by blanks. -/
def localSpellings : List (Speller Unit) :=
  [do looseDate; literal 'T'; looseMinutes; looseSeconds; done,
   do looseDate; literal 'T'; looseMinutes; done,
   do looseDate; blanks; looseMinutes; looseSeconds; done,
   do looseDate; blanks; looseMinutes; done,
   do looseDate; done]

end Speller

/-- The text, trimmed, spells a date and time that exists. -/
def isDateTime (text : List Char) : Bool :=
  (Speller.profileDateTime :: Speller.mailDateTime :: Speller.localSpellings).any fun spelling =>
    (spelling (trim text)).isSome

end BimEditor.Calendar
