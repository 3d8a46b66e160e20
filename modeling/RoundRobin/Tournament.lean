import RoundRobin.Rule.Basic

/-! Tournaments: double round robins of some teams over some slots, with the rules they are to
keep. -/

namespace RoundRobin

structure Tournament where
  name : Option String
  teams : List Int
  slots : List Int
  /-- Whether each pairing has to be played once in each half of the season. -/
  phased : Bool
  rules : List Rule
deriving DecidableEq, Repr

namespace Tournament

def teamCount (tournament : Tournament) : Nat := tournament.teams.length

def slotCount (tournament : Tournament) : Nat := tournament.slots.length

/-- The first natural numbers, as ids. -/
def firstIds (count : Nat) : List Int := (List.range count).map Int.ofNat

/-- All games: each ordered pair of different teams, ascending by home and then by away team. -/
def games (tournament : Tournament) : List Match :=
  (firstIds tournament.teamCount).flatMap fun home =>
    (firstIds tournament.teamCount).filterMap (Match.of? home)

/-- How many choices of a game and a slot there are. -/
def gameSlotCount (tournament : Tournament) : Nat :=
  tournament.games.length * tournament.slotCount

def rulesOf (tournament : Tournament) (kind : Kind) : List Rule :=
  tournament.rules.filter (·.kind = kind)

def count (tournament : Tournament) (kind : Kind) : Nat := (tournament.rulesOf kind).length

def softCount (tournament : Tournament) (kind : Kind) : Nat :=
  ((tournament.rulesOf kind).filter (·.strength.isSoft)).length

/-- Whether a rule counts breaks. -/
def hasBreaks (tournament : Tournament) : Bool :=
  tournament.rules.any fun rule => rule.kind = .br1 || rule.kind = .br2

/-- Whether a rule compares home games. -/
def hasBalance (tournament : Tournament) : Bool :=
  tournament.rules.any fun rule => rule.kind = .fa2

end Tournament

end RoundRobin
