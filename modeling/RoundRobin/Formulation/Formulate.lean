import RoundRobin.Formulation.Frame
import RoundRobin.Formulation.Goal
import RoundRobin.Formulation.Rules

/-! Tournaments formulated as integer programs: the frame, the rules in order, and the goal. -/

namespace RoundRobin

open Zimpl

namespace Tournament

/-- What the rules of a tournament add to the program, each behind those before it, and what they
have taken in the end. -/
def parts (tournament : Tournament) (options : Options) : Except Failure (List Part × Counters) :=
  (tournament.rules.mapM (Rule.part options)).run {}

/-- The program of some parts. -/
def assemble (tournament : Tournament) (options : Options) (parts : List Part) : Program :=
  Frame.statements tournament options
    ++ parts.flatMap Part.statements
    ++ goal options (parts.flatMap (·.fragment.charges))

/-- Formulates a tournament. The first rule that cannot be formulated is the failure. -/
def formulate (tournament : Tournament) (options : Options) : Except Failure Program := do
  let (parts, _) ← tournament.parts options
  return tournament.assemble options parts

end Tournament

/-- How many numbers the rules of each kind have taken, where they have taken any. -/
def Counters.notes (counters : Counters) : List Note :=
  Kind.all.filterMap fun kind =>
    let count := counters.numbers.count kind
    if count = 0 then none else some (.numbered kind count)

/-- The notes on formulating a tournament. -/
def Tournament.formulateNotes (tournament : Tournament) (options : Options) : List Note :=
  [.formulating tournament.teamCount tournament.slotCount tournament.rules.length]
    ++ (Frame.oddFamilies tournament options).map (fun (name, size) => .oddSets name size)
    ++ [.gameVariables tournament.gameSlotCount]
    ++ ruleNotes options tournament.rules {}
    ++ match tournament.parts options with
      | .ok (parts, counters) =>
        counters.notes ++ goalNotes options (parts.flatMap (·.fragment.charges))
      | .error _ => []

end RoundRobin
