import RoundRobin.Rule.Entry

/-! Rules read from the tag and the attributes of an element, and the check that a rule mentions
only teams and slots that exist. The attributes of a kind are read in a fixed order, so the first
that fails is the failure. -/

namespace RoundRobin

/-- Reads the demand of an entry whose form has been checked. -/
def Demand.ofEntry (entry : Entry) : Except Failure Demand :=
  match entry.kind with
  | .ca1 => do
    let min ← entry.numberOrZero "min"
    let max ← entry.number "max"
    let side ← entry.oneSide "mode"
    let teams ← entry.ids "teams"
    let slots ← entry.ids "slots"
    return .ca1 { min, max, side, teams, slots }
  | .ca2 => do
    let min ← entry.numberOrZero "min"
    let max ← entry.number "max"
    let side ← entry.anySide "mode1"
    let teams ← entry.ids "teams1"
    let opponents ← entry.ids "teams2"
    let slots ← entry.ids "slots"
    return .ca2 { min, max, side, teams, opponents, slots }
  | .ca3 => do
    let min ← entry.numberOrZero "min"
    let max ← entry.number "max"
    let window ← entry.number "intp"
    let side ← entry.anySide "mode1"
    let teams ← entry.ids "teams1"
    let opponents ← entry.ids "teams2"
    return .ca3 { min, max, window, side, teams, opponents }
  | .ca4 => do
    let scope ← entry.scope "mode2"
    let min ← entry.numberOrZero "min"
    let max ← entry.number "max"
    let side ← entry.anySide "mode1"
    let teams ← entry.ids "teams1"
    let opponents ← entry.ids "teams2"
    let slots ← entry.ids "slots"
    return .ca4 { min, max, side, scope, teams, opponents, slots }
  | .ga1 => do
    let min ← entry.numberOrZero "min"
    let max ← entry.number "max"
    let slots ← entry.ids "slots"
    let meetings ← entry.meetings "meetings"
    return .ga1 { min, max, slots, meetings }
  | .se1 => do
    let min ← entry.number "min"
    let teams ← entry.ids "teams"
    return .se1 { min, teams }
  | .br1 => do
    let limit ← entry.number "intp"
    let side ← entry.anySide "mode2"
    let teams ← entry.ids "teams"
    let slots ← entry.ids "slots"
    return .br1 { limit, side, teams, slots }
  | .br2 => do
    let limit ← entry.number "intp"
    let teams ← entry.ids "teams"
    let slots ← entry.ids "slots"
    return .br2 { limit, teams, slots }
  | .fa2 => do
    let limit ← entry.number "intp"
    let teams ← entry.ids "teams"
    let slots ← entry.ids "slots"
    return .fa2 { limit, teams, slots }

/-- Checks the attributes of a kind that decide its form before anything else is read. -/
def Entry.checkForm (entry : Entry) : Except Failure Unit :=
  match entry.kind with
  | .ca1 => .ok ()
  | .ca2 => entry.literal "mode2" "GLOBAL"
  | .ca3 => entry.literal "mode2" "SLOTS"
  | .ca4 => discard (entry.scope "mode2")
  | .ga1 => .ok ()
  | .se1 => entry.literal "mode1" "SLOTS"
  | .br1 => entry.literal "mode1" "LEQ"
  | .br2 => do
    entry.literal "homeMode" "HA"
    entry.literal "mode2" "LEQ"
  | .fa2 => entry.literal "mode" "H"

/-- Reads a rule from its entry: its form first, then its strength, then its demand. -/
def Rule.ofEntry (entry : Entry) : Except Failure Rule := do
  entry.checkForm
  let strength ← entry.strength
  let demand ← Demand.ofEntry entry
  return { strength, demand }

/-- Reads a rule from the tag and the attributes of an element. Other tags name no rule. -/
def Rule.read? (tag : String) (attributes : List (String × String)) :
    Except Failure (Option Rule) :=
  match Kind.ofTag? tag with
  | some kind => some <$> Rule.ofEntry { kind, attributes }
  | none => .ok none

/-- Checks that each id is below the number of its resource; the first that is not is named. -/
def checkKnown (kind : Kind) (resource : Resource) (count : Nat) (ids : List Int) :
    Except Failure Unit :=
  match ids.find? fun id => id < 0 ∨ (count : Int) ≤ id with
  | some id => .error (.structural (.unknownId kind resource id))
  | none => .ok ()

/-- Checks that every team and every slot that the rule mentions exists. -/
def Rule.checkIds (teamCount slotCount : Nat) (rule : Rule) : Except Failure Unit := do
  checkKnown rule.kind .team teamCount rule.demand.teamIds
  checkKnown rule.kind .slot slotCount rule.demand.slotIds

end RoundRobin
