import Mathlib
import RoundRobin.Formulation.Options
import RoundRobin.Tournament

/-! Timetables, and what a tournament asks of one. Nothing here refers to a program: a timetable
says which games take place in which slots, its tally counts them, and a rule bounds such counts.
`Kept` is what a hard rule demands, and `excess` is the least violation that a soft rule can be
charged. -/

namespace RoundRobin

open Finset

/-- Whether a home team plays an away team in a slot. -/
abbrev Timetable := Int → Int → Int → Bool

namespace Tournament

def teamSet (t : Tournament) : Finset Int := (firstIds t.teamCount).toFinset

def slotSet (t : Tournament) : Finset Int := (firstIds t.slotCount).toFinset

/-- The slots before half the number of slots. -/
def firstHalf (t : Tournament) : Finset Int := (firstIds (t.slotCount / 2)).toFinset

end Tournament

namespace Timetable

/-- A double round robin of the form that the tournament and the options ask for. -/
structure IsSeason (plays : Timetable) (t : Tournament) (options : Options) : Prop where
  once : ∀ home ∈ t.teamSet, ∀ away ∈ t.teamSet, home ≠ away →
    #{slot ∈ t.slotSet | plays home away slot} = 1
  daily : ∀ slot ∈ t.slotSet, ∀ team ∈ t.teamSet,
    #{other ∈ t.teamSet.erase team | plays team other slot}
      + #{other ∈ t.teamSet.erase team | plays other team slot} = 1
  halves : t.phased = true → options.symmetric = false →
    ∀ a ∈ t.teamSet, ∀ b ∈ t.teamSet, a < b →
      #{slot ∈ t.firstHalf | plays a b slot} + #{slot ∈ t.firstHalf | plays b a slot} = 1
  mirror : options.symmetric = true →
    ∀ home ∈ t.teamSet, ∀ away ∈ t.teamSet, home ≠ away → ∀ slot ∈ t.firstHalf,
      plays home away slot = plays away home (slot + (t.slotCount / 2 : Nat))

def IsHome (plays : Timetable) (t : Tournament) (team slot : Int) : Prop :=
  slot ∈ t.slotSet ∧ ∃ other ∈ t.teamSet.erase team, plays team other slot = true

def IsAway (plays : Timetable) (t : Tournament) (team slot : Int) : Prop :=
  slot ∈ t.slotSet ∧ ∃ other ∈ t.teamSet.erase team, plays other team slot = true

instance (plays : Timetable) (t : Tournament) (team slot : Int) :
    Decidable (plays.IsHome t team slot) := by
  unfold IsHome
  infer_instance

instance (plays : Timetable) (t : Tournament) (team slot : Int) :
    Decidable (plays.IsAway t team slot) := by
  unfold IsAway
  infer_instance

end Timetable

/-- What the rules of a tournament count. -/
structure Tally where
  /-- How often a home team plays an away team in a slot. -/
  game : Int → Int → Int → Rat
  /-- How often a team has a break at home in a slot. -/
  homeBreak : Int → Int → Rat
  awayBreak : Int → Int → Rat
  /-- The home games of a team up to a slot. -/
  homeGames : Int → Int → Rat

/-- A team has a break in a slot if it plays at the same venue as in the slot before. -/
def Timetable.tally (plays : Timetable) (t : Tournament) : Tally where
  game home away slot := if plays home away slot then 1 else 0
  homeBreak team slot := if plays.IsHome t team (slot - 1) ∧ plays.IsHome t team slot then 1 else 0
  awayBreak team slot := if plays.IsAway t team (slot - 1) ∧ plays.IsAway t team slot then 1 else 0
  homeGames team slot :=
    #{game ∈ t.teamSet.erase team ×ˢ t.slotSet | game.2 ≤ slot ∧ plays team game.1 game.2}

namespace Tally

/-- The games of a team against another in a slot that a side counts. -/
def meeting (tally : Tally) (side : Side) (team other slot : Int) : Rat :=
  (if side.countsHome then tally.game team other slot else 0)
    + if side.countsAway then tally.game other team slot else 0

def breaks (tally : Tally) (side : Side) (team slot : Int) : Rat :=
  (if side.countsHome then tally.homeBreak team slot else 0)
    + if side.countsAway then tally.awayBreak team slot else 0

/-- The slot of a game, where it takes place once. -/
def slotOf (tally : Tally) (t : Tournament) (home away : Int) : Rat :=
  ∑ slot ∈ t.slotSet, slot * tally.game home away slot

end Tally

/-- The greatest of some values, or zero if none is positive. -/
def worst (s : Finset ι) (value : ι → Rat) : Rat := s.fold max 0 value

section Counts

variable (t : Tournament) (tally : Tally)

def SideCap.games (cap : SideCap) (team : Int) : Rat :=
  ∑ other ∈ t.teamSet.erase team, ∑ slot ∈ cap.slots.toFinset,
    tally.meeting cap.side team other slot

def OpponentCap.games (cap : OpponentCap) (team : Int) : Rat :=
  ∑ slot ∈ cap.slots.toFinset, ∑ other ∈ cap.opponents.toFinset.erase team,
    tally.meeting cap.side team other slot

/-- The last slots of the windows that lie within the season. -/
def WindowCap.ends (cap : WindowCap) : Finset Int := {last ∈ t.slotSet | cap.window ≤ last + 1}

/-- The games in the window that ends in a slot. -/
def WindowCap.games (cap : WindowCap) (team last : Int) : Rat :=
  ∑ other ∈ cap.opponents.toFinset.erase team,
    ∑ slot ∈ t.slotSet with last - cap.window < slot ∧ slot ≤ last,
      tally.meeting cap.side team other slot

def GroupCap.gamesIn (cap : GroupCap) (slot : Int) : Rat :=
  ∑ pair ∈ cap.teams.toFinset ×ˢ cap.opponents.toFinset with pair.1 ≠ pair.2,
    tally.meeting cap.side pair.1 pair.2 slot

def GroupCap.games (cap : GroupCap) : Rat := ∑ slot ∈ cap.slots.toFinset, cap.gamesIn tally slot

/-- A meeting counts as often as it is listed. -/
def MeetingBound.games (bound : MeetingBound) : Rat :=
  ∑ slot ∈ bound.slots.toFinset,
    (bound.meetings.map fun game => tally.game game.home game.away slot).sum

def unorderedPairs (teams : List Int) : Finset (Int × Int) :=
  {pair ∈ teams.toFinset ×ˢ teams.toFinset | pair.1 < pair.2}

def Separation.distance (pair : Int × Int) : Rat :=
  |tally.slotOf t pair.1 pair.2 - tally.slotOf t pair.2 pair.1|

/-- The first slot of a season has no breaks. -/
def TeamBreaks.breaks (rule : TeamBreaks) (team : Int) : Rat :=
  ∑ slot ∈ rule.slots.toFinset.erase 0, tally.breaks rule.side team slot

/-- The listed slots but the least of them, in which a break would reach out of the block. -/
def GroupBreaks.inner (rule : GroupBreaks) : Finset Int :=
  {slot ∈ rule.slots.toFinset | ∃ earlier ∈ rule.slots.toFinset, earlier < slot}

def GroupBreaks.breaks (rule : GroupBreaks) : Rat :=
  ∑ team ∈ rule.teams.toFinset, ∑ slot ∈ rule.inner, tally.breaks .both team slot

def HomeBalance.lead (pair : Int × Int) (slot : Int) : Rat :=
  |tally.homeGames pair.1 slot - tally.homeGames pair.2 slot|

/-- What a hard rule asks of a season. -/
def Demand.Kept : Demand → Prop
  | .ca1 cap => ∀ team ∈ cap.teams, cap.games t tally team ≤ cap.max
  | .ca2 cap => ∀ team ∈ cap.teams, cap.games tally team ≤ cap.max
  | .ca3 cap => ∀ team ∈ cap.teams, ∀ last ∈ cap.ends t, cap.games t tally team last ≤ cap.max
  | .ca4 cap => match cap.scope with
    | .global => cap.games tally ≤ cap.max
    | .every => ∀ slot ∈ cap.slots, cap.gamesIn tally slot ≤ cap.max
  | .ga1 bound => bound.min ≤ bound.games tally ∧ bound.games tally ≤ bound.max
  | .se1 rule => ∀ pair ∈ unorderedPairs rule.teams, rule.min + 1 ≤ Separation.distance t tally pair
  | .br1 rule => ∀ team ∈ rule.teams, rule.breaks tally team ≤ rule.limit
  | .br2 rule => rule.breaks tally ≤ rule.limit
  | .fa2 rule => ∀ pair ∈ unorderedPairs rule.teams, ∀ slot ∈ rule.slots,
      HomeBalance.lead tally pair slot ≤ rule.limit

/-- The least violation that a soft rule can be charged for a season. -/
def Demand.excess (options : Options) : Demand → Rat
  | .ca1 cap => worst cap.teams.toFinset fun team => cap.games t tally team - cap.max
  | .ca2 cap => worst cap.teams.toFinset fun team => cap.games tally team - cap.max
  | .ca3 cap => ∑ last ∈ cap.ends t,
      worst cap.teams.toFinset fun team => cap.games t tally team last - cap.max
  | .ca4 cap => match cap.scope with
    | .global => max 0 (cap.games tally - cap.max)
    | .every => ∑ slot ∈ cap.slots.toFinset, max 0 (cap.gamesIn tally slot - cap.max)
  | .ga1 bound => match options.minPenalty with
    | .shared => max 0 (max (bound.games tally - bound.max) (bound.min - bound.games tally))
    | .separate => max 0 (bound.games tally - bound.max) + max 0 (bound.min - bound.games tally)
  | .se1 rule => ∑ pair ∈ unorderedPairs rule.teams,
      max 0 (rule.min + 1 - Separation.distance t tally pair)
  | .br1 rule => worst rule.teams.toFinset fun team => rule.breaks tally team - rule.limit
  | .br2 rule => max 0 (rule.breaks tally - rule.limit)
  | .fa2 rule => ∑ pair ∈ unorderedPairs rule.teams,
      worst rule.slots.toFinset fun slot => HomeBalance.lead tally pair slot - rule.limit

end Counts

/-- What one unit of violation costs. -/
def Strength.penalty : Strength → Nat
  | .hard => 0
  | .soft penalty => penalty

/-- What the soft rules of a tournament cost at least, if a timetable is played. -/
def Timetable.cost (plays : Timetable) (t : Tournament) (options : Options) : Rat :=
  ((t.rules.filter fun rule => rule.strength.isSoft).map fun rule =>
    (rule.strength.penalty * rule.demand.excess t (plays.tally t) options : Rat)).sum

end RoundRobin
