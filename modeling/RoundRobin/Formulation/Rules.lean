import RoundRobin.Formulation.Breaks
import RoundRobin.Formulation.Caps
import RoundRobin.Formulation.Meetings
import RoundRobin.Formulation.Pairs
import RoundRobin.Note
import RoundRobin.Rule.Description

/-! Rules, one after another. Each takes its number, is checked and adds its fragment, unless it is
passed over. -/

namespace RoundRobin

open Zimpl

namespace Rule

/-- A soft rule is passed over where soft rules are left out. Its numbers stay taken. -/
def isSkipped (options : Options) (rule : Rule) : Bool :=
  rule.strength.isSoft && !options.soft

/-- Takes a number for a rule and checks the rule, also if it is passed over. -/
def formulateWith (rule : Rule) (options : Options) (check : Except Failure Unit)
    (fragment : Nat → Formulating Fragment) : Formulating Fragment := do
  let number ← nextNumber rule.kind
  check
  if rule.isSkipped options then return {} else fragment number

/-- A rule that gives way by violations of its own. -/
def alone (rule : Rule) (fragment : Strength → Numbered → Fragment) (number : Nat) :
    Formulating Fragment :=
  return fragment rule.strength ⟨rule, number, 0⟩

/-- A rule that gives way, if it is soft, at the next place of the array that its kind shares. -/
def sharing (rule : Rule) (fragment : Strength → Numbered → Fragment) (number : Nat) :
    Formulating Fragment := do
  let place ← if rule.strength.isSoft then nextMember rule.kind else pure 0
  return fragment rule.strength ⟨rule, number, place⟩

end Rule

/-- The lower bound takes a number of its own, also where the rule is passed over. Whether there are
meetings is then not looked at. -/
def MeetingBound.formulate (bound : MeetingBound) (options : Options) (rule : Rule) :
    Formulating Fragment := do
  let number ← nextNumber .ga1
  if rule.isSkipped options then
    if bound.min ≠ 0 then discard (nextNumber .ga1)
    return {}
  else if bound.meetings = [] then
    throw (.structural (.noMeetings .ga1 number))
  else
    let place ← if rule.strength.isSoft then nextMember .ga1 else pure 0
    let most := bound.most rule.strength ⟨rule, number, place⟩
    if bound.min = 0 then return most
    else
      let second ← nextNumber .ga1
      return most ++ bound.least options rule.strength ⟨rule, number, place⟩ second

namespace Rule

/-- What a rule adds to the program, behind the rules that left the counters as they are. -/
def formulate (options : Options) (rule : Rule) : Formulating Fragment :=
  match rule.demand with
  | .ca1 cap => rule.formulateWith options (checkMin .ca1 cap.min) (rule.sharing cap.fragment)
  | .ca2 cap => rule.formulateWith options (checkMin .ca2 cap.min) (rule.sharing cap.fragment)
  | .ca3 cap => rule.formulateWith options cap.check (rule.alone cap.fragment)
  | .ca4 cap => rule.formulateWith options (checkMin .ca4 cap.min) (rule.alone cap.fragment)
  | .ga1 bound => bound.formulate options rule
  | .se1 separation => rule.formulateWith options (.ok ()) (rule.alone separation.fragment)
  | .br1 breaks => rule.formulateWith options (.ok ()) (rule.alone breaks.fragment)
  | .br2 breaks => rule.formulateWith options breaks.check (rule.alone breaks.fragment)
  | .fa2 balance => rule.formulateWith options (.ok ()) (rule.alone balance.fragment)

end Rule

/-- A rule and what it adds to the program. -/
structure Part where
  rule : Rule
  fragment : Fragment
deriving DecidableEq

namespace Part

/-- The description of the rule as a comment, and its fragment. -/
def statements (part : Part) : List Statement :=
  titled part.rule.text part.fragment.statements

end Part

def Rule.part (options : Options) (rule : Rule) : Formulating Part :=
  return ⟨rule, ← rule.formulate options⟩

/-- The note on a break rule that asks for nothing. -/
def Rule.emptyNote? (options : Options) (rule : Rule) (number : Nat) : Option Note :=
  let name := Numbered.nameWith rule.kind number
  if rule.isSkipped options then none
  else match rule.demand with
    | .br1 breaks => if breaks.countedSlots = [] then some (.firstSlotOnly name) else none
    | .br2 breaks => if breaks.countedSlots = [] then some (.singleSlot name) else none
    | _ => none

/-- The notes on formulating some rules, up to the first that cannot be. -/
def ruleNotes (options : Options) : List Rule → Counters → List Note
  | [], _ => []
  | rule :: rules, counters =>
    .rule rule.text :: match (rule.formulate options).run counters with
      | .error _ => []
      | .ok (_, after) =>
        (rule.emptyNote? options (after.numbers.count rule.kind)).toList
          ++ ruleNotes options rules after

end RoundRobin
