import RoundRobin.Formulation.Formulate

/-! The numbers of rules in closed form. Rules are numbered within their kind, in the order of the
tournament, whether or not they are formulated. A GA1 rule with a lower bound takes two numbers.
What a rule adds is then known from the rules before it, without counters. -/

namespace RoundRobin

open Zimpl

/-- How many numbers a demand takes. -/
def Demand.units : Demand → Nat
  | .ga1 bound => if bound.min = 0 then 1 else 2
  | _ => 1

/-- How many numbers some rules take of those of a kind. -/
def unitsOf (kind : Kind) : List Rule → Nat
  | [] => 0
  | rule :: rules => (if rule.kind = kind then rule.demand.units else 0) + unitsOf kind rules

/-- How many of some rules are soft rules of a kind. -/
def softOf (kind : Kind) (rules : List Rule) : Nat :=
  (rules.filter fun rule => rule.kind = kind ∧ rule.strength.isSoft).length

theorem unitsOf_append (kind : Kind) (earlier rules : List Rule) :
    unitsOf kind (earlier ++ rules) = unitsOf kind earlier + unitsOf kind rules := by
  induction earlier with
  | nil => exact (Nat.zero_add _).symm
  | cons first earlier ih => simp only [List.cons_append, unitsOf, ih, Nat.add_assoc]

theorem softOf_append (kind : Kind) (earlier rules : List Rule) :
    softOf kind (earlier ++ rules) = softOf kind earlier + softOf kind rules := by
  simp [softOf]

namespace Numbered

/-- A rule behind others. -/
def behind (earlier : List Rule) (rule : Rule) : Numbered :=
  ⟨rule, unitsOf rule.kind earlier + 1, softOf rule.kind earlier + 1⟩

/-- Rules that follow others, each with its numbers. -/
def allBehind (earlier : List Rule) : List Rule → List Numbered
  | [] => []
  | rule :: rules => behind earlier rule :: allBehind (earlier ++ [rule]) rules

theorem map_rule_allBehind (earlier rules : List Rule) :
    (allBehind earlier rules).map (·.rule) = rules := by
  induction rules generalizing earlier with
  | nil => rfl
  | cons rule rules ih => simp [allBehind, behind, ih]

def isSkipped (options : Options) (rule : Numbered) : Bool := rule.rule.isSkipped options

/-- Checks that a rule can be formulated. Rules that are passed over are checked as well, but for
GA1 rules without meetings. -/
def check (options : Options) (rule : Numbered) : Except Failure Unit :=
  match rule.rule.demand with
  | .ca1 cap => checkMin .ca1 cap.min
  | .ca2 cap => checkMin .ca2 cap.min
  | .ca3 cap => cap.check
  | .ca4 cap => checkMin .ca4 cap.min
  | .ga1 bound =>
    if bound.meetings = [] ∧ !rule.isSkipped options then
      .error (.structural (.noMeetings .ga1 rule.number))
    else .ok ()
  | .br2 breaks => breaks.check
  | .se1 _ | .br1 _ | .fa2 _ => .ok ()

end Numbered

/-- The lower bound has the number behind that of the upper bound. -/
def MeetingBound.fragment (bound : MeetingBound) (options : Options) (strength : Strength)
    (rule : Numbered) : Fragment :=
  if bound.min = 0 then bound.most strength rule
  else bound.most strength rule ++ bound.least options strength rule (rule.number + 1)

namespace Numbered

def fragment (options : Options) (rule : Numbered) : Fragment :=
  if rule.isSkipped options then {}
  else
    let strength := rule.rule.strength
    match rule.rule.demand with
    | .ca1 cap => cap.fragment strength rule
    | .ca2 cap => cap.fragment strength rule
    | .ca3 cap => cap.fragment strength rule
    | .ca4 cap => cap.fragment strength rule
    | .ga1 bound => bound.fragment options strength rule
    | .se1 separation => separation.fragment strength rule
    | .br1 breaks => breaks.fragment strength rule
    | .br2 breaks => breaks.fragment strength rule
    | .fa2 balance => balance.fragment strength rule

def part (options : Options) (rule : Numbered) : Part := ⟨rule.rule, rule.fragment options⟩

/-- What a rule adds to the program: its description as a comment, and its fragment. -/
def statements (options : Options) (rule : Numbered) : List Statement :=
  titled rule.rule.text (rule.fragment options).statements

end Numbered

namespace Tournament

/-- The rules of a tournament with their numbers. -/
def numbered (tournament : Tournament) : List Numbered := Numbered.allBehind [] tournament.rules

/-- Numbering keeps the rules and their order. -/
theorem map_rule_numbered (tournament : Tournament) :
    tournament.numbered.map (·.rule) = tournament.rules :=
  Numbered.map_rule_allBehind [] tournament.rules

/-- What the rules add, in order. -/
def numberedParts (tournament : Tournament) (options : Options) : List Part :=
  tournament.numbered.map (Numbered.part options)

/-- The charges of all rules, in order. -/
def charges (tournament : Tournament) (options : Options) : List Linear :=
  tournament.numbered.flatMap fun rule => (rule.fragment options).charges

/-- The whole program, if each rule can be formulated. -/
def program (tournament : Tournament) (options : Options) : Program :=
  Frame.statements tournament options
    ++ tournament.numbered.flatMap (Numbered.statements options)
    ++ goal options (tournament.charges options)

theorem assemble_numberedParts (tournament : Tournament) (options : Options) :
    tournament.assemble options (tournament.numberedParts options) =
      tournament.program options := by
  rw [assemble, program, charges, numberedParts, List.flatMap_map, List.flatMap_map]
  rfl

end Tournament

end RoundRobin
