/-! The choices that shape a program beyond the tournament itself. -/

namespace RoundRobin

/-- The sizes of the odd sets of teams whose games with other teams are counted. -/
inductive OddSets where
  | none
  /-- Sets of three teams. -/
  | three
  /-- Sets of each odd size from three up to half the teams. -/
  | all
deriving DecidableEq, Repr, Inhabited

/-- How the lower bound of a soft GA1 rule gives way. -/
inductive MinPenalty where
  /-- By the violation of the upper bound. -/
  | shared
  /-- By a violation of its own, with a charge of its own. -/
  | separate
deriving DecidableEq, Repr, Inhabited

/-- A bound on the sum of the charges behind the first `skip`. -/
structure Cutoff where
  value : Int
  skip : Nat
deriving DecidableEq, Repr

def Cutoff.defaultSkip : Nat := 18

structure Options where
  /-- Whether soft rules are formulated and charged. -/
  soft : Bool := true
  /-- Whether the second half of the season mirrors the first. -/
  symmetric : Bool := false
  /-- Whether to schedule as many games as possible rather than all of them at least cost. -/
  feasibility : Bool := false
  oddSets : OddSets := .none
  /-- Whether the total number of games is fixed. -/
  fixGameCount : Bool := false
  cutoff : Option Cutoff := none
  minPenalty : MinPenalty := .shared
deriving DecidableEq, Repr

instance : Inhabited Options := ⟨{}⟩

end RoundRobin
