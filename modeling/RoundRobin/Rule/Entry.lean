import RoundRobin.Failure
import RoundRobin.Rule.Basic
import RoundRobin.Text.Blank
import RoundRobin.Text.Numeral
import RoundRobin.Text.Split

/-! The entry of a rule in a document: its kind and its attributes, read one at a time. A value that
is missing, malformed or unsupported is a failure that names the attribute. -/

namespace RoundRobin

structure Entry where
  kind : Kind
  attributes : List (String × String)

/-- Numbers are 32 bits wide. -/
def numberLimit : Nat := 1 <<< 32

/-- Ids are 64 bits wide with their sign. -/
def idLimit : Nat := 1 <<< 63

/-- The items of a list between semicolons, trimmed and without the blank ones. -/
def listItems (value : String) : List (List Char) :=
  ((Text.split ';' value.toList).map Text.trim).filter (· ≠ [])

/-- The ids of the two teams of a meeting. -/
def teamPair? (item : List Char) : Option (Int × Int) :=
  match Text.split ',' item with
  | [home, away] => do
    let home ← Text.integer? idLimit (Text.trim home)
    let away ← Text.integer? idLimit (Text.trim away)
    return (home, away)
  | _ => none

namespace Entry

def required (entry : Entry) (name : String) : Except Failure String :=
  match entry.attributes.lookup name with
  | some value => .ok value
  | none => .error (.missingAttribute entry.kind name)

/-- The result of reading a value; without one, the attribute is malformed. -/
def wellFormed (entry : Entry) (name value : String) : Option α → Except Failure α
  | some result => .ok result
  | none => .error (.malformedAttribute entry.kind name value)

def unsupported (entry : Entry) (name value : String) : Except Failure α :=
  .error (.unsupportedAttribute entry.kind name value)

def number (entry : Entry) (name : String) : Except Failure Nat := do
  let value ← entry.required name
  entry.wellFormed name value (Text.natural? numberLimit (Text.trim value.toList))

/-- A number that is zero where the attribute is absent. -/
def numberOrZero (entry : Entry) (name : String) : Except Failure Nat :=
  match entry.attributes.lookup name with
  | some _ => entry.number name
  | none => .ok 0

def ids (entry : Entry) (name : String) : Except Failure (List Int) := do
  let value ← entry.required name
  entry.wellFormed name value ((listItems value).mapM (Text.integer? idLimit))

def meeting (entry : Entry) (name value : String) (item : List Char) : Except Failure Match := do
  let (home, away) ← entry.wellFormed name value (teamPair? item)
  match Match.of? home away with
  | some game => .ok game
  | none => .error (.structural (.selfMeeting entry.kind (String.ofList item)))

def meetings (entry : Entry) (name : String) : Except Failure (List Match) := do
  let value ← entry.required name
  (listItems value).mapM (entry.meeting name value)

/-- An attribute that has one supported value. -/
def literal (entry : Entry) (name expected : String) : Except Failure Unit := do
  let value ← entry.required name
  if value = expected then .ok () else entry.unsupported name value

/-- The penalty is read for soft rules only. -/
def strength (entry : Entry) : Except Failure Strength := do
  let value ← entry.required "type"
  if value = "HARD" then .ok .hard
  else if value = "SOFT" then .soft <$> entry.number "penalty"
  else entry.unsupported "type" value

/-- The home or the away side. -/
def oneSide (entry : Entry) (name : String) : Except Failure Side := do
  let value ← entry.required name
  if value = "H" then .ok .home
  else if value = "A" then .ok .away
  else entry.unsupported name value

/-- The home side, the away side or both. -/
def anySide (entry : Entry) (name : String) : Except Failure Side := do
  let value ← entry.required name
  if value = "HA" then .ok .both else entry.oneSide name

def scope (entry : Entry) (name : String) : Except Failure Scope := do
  let value ← entry.required name
  if value = "GLOBAL" then .ok .global
  else if value = "EVERY" then .ok .every
  else entry.unsupported name value

end Entry

end RoundRobin
