import RoundRobin.Formulation.Fragment
import RoundRobin.Formulation.Options

/-! GA1 rules: bounds on the number of listed meetings in the listed slots. -/

namespace RoundRobin

open Zimpl

namespace MeetingBound

/-- The games of the meetings in the slots. -/
def counted (bound : MeetingBound) : Linear :=
  .sumOver (.over ["s"] (.ids bound.slots))
    (.plus (bound.meetings.map fun game => playedIn (.int game.home) (.int game.away) "s"))

/-- At most `max` of the meetings. -/
def most (bound : MeetingBound) (strength : Strength) (rule : Numbered) : Fragment :=
  strength.relax (.member "ga1_viol" rule.softPlace) fun violation =>
    [⟨rule.name, [], [⟨bound.counted, .le, atMost bound.max violation⟩]⟩]

/-- At least `min` of the meetings, under a number of its own. A shared violation is charged with
`most`. -/
def least (bound : MeetingBound) (options : Options) (strength : Strength) (rule : Numbered)
    (number : Nat) : Fragment :=
  let subtos := fun violation =>
    [⟨Numbered.nameWith .ga1 number, [], [⟨bound.counted, .ge, atLeast bound.min violation⟩]⟩]
  match options.minPenalty with
  | .shared => { strength.relax (.member "ga1_viol" rule.softPlace) subtos with charges := [] }
  | .separate => strength.relax (.member "ga1_min_viol" rule.softPlace) subtos

end MeetingBound

end RoundRobin
