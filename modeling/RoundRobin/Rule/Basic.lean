import RoundRobin.Rule.Kind

/-! Rules of a tournament. A rule has a strength and a demand; there is one form of demand for each
kind, with the bounds, sides and lists of ids that the kind needs. -/

namespace RoundRobin

/-- A hard rule must be kept; breaking a soft one costs its penalty for each unit of violation. -/
inductive Strength where
  | hard
  | soft (penalty : Nat)
deriving DecidableEq, Repr, Inhabited

def Strength.isSoft : Strength → Bool
  | .hard => false
  | .soft _ => true

/-- The games that a rule counts for a team. -/
inductive Side where
  | home | away | both
deriving DecidableEq, Repr, Inhabited

def Side.countsHome (side : Side) : Bool := side ≠ .away

def Side.countsAway (side : Side) : Bool := side ≠ .home

/-- Whether a bound holds over all slots together or in every slot. -/
inductive Scope where
  | global | every
deriving DecidableEq, Repr, Inhabited

/-- A game between two teams, at the first one's venue. -/
structure Match where
  home : Int
  away : Int
  home_ne_away : home ≠ away
deriving DecidableEq, Repr

/-- The game of two teams, if they differ. -/
def Match.of? (home away : Int) : Option Match :=
  if h : home = away then none else some ⟨home, away, h⟩

/-- CA1: home or away games of each listed team in the listed slots. -/
structure SideCap where
  min : Nat
  max : Nat
  side : Side
  teams : List Int
  slots : List Int
deriving DecidableEq, Repr

/-- CA2: games of each listed team against the opponents in the listed slots. -/
structure OpponentCap where
  min : Nat
  max : Nat
  side : Side
  teams : List Int
  opponents : List Int
  slots : List Int
deriving DecidableEq, Repr

/-- CA3: games of each listed team against the opponents in every window of consecutive slots. -/
structure WindowCap where
  min : Nat
  max : Nat
  window : Nat
  side : Side
  teams : List Int
  opponents : List Int
deriving DecidableEq, Repr

/-- CA4: games between two groups of teams in the listed slots. -/
structure GroupCap where
  min : Nat
  max : Nat
  side : Side
  scope : Scope
  teams : List Int
  opponents : List Int
  slots : List Int
deriving DecidableEq, Repr

/-- GA1: listed meetings that fall into the listed slots. -/
structure MeetingBound where
  min : Nat
  max : Nat
  slots : List Int
  meetings : List Match
deriving DecidableEq, Repr

/-- SE1: slots between the two games of each pair of listed teams. -/
structure Separation where
  min : Nat
  teams : List Int
deriving DecidableEq, Repr

/-- BR1: breaks of each listed team in the listed slots. -/
structure TeamBreaks where
  limit : Nat
  side : Side
  teams : List Int
  slots : List Int
deriving DecidableEq, Repr

/-- BR2: breaks of all listed teams together in a block of slots. -/
structure GroupBreaks where
  limit : Nat
  teams : List Int
  slots : List Int
deriving DecidableEq, Repr

/-- FA2: difference in home games played between any two listed teams at the listed slots. -/
structure HomeBalance where
  limit : Nat
  teams : List Int
  slots : List Int
deriving DecidableEq, Repr

inductive Demand where
  | ca1 (cap : SideCap)
  | ca2 (cap : OpponentCap)
  | ca3 (cap : WindowCap)
  | ca4 (cap : GroupCap)
  | ga1 (bound : MeetingBound)
  | se1 (separation : Separation)
  | br1 (breaks : TeamBreaks)
  | br2 (breaks : GroupBreaks)
  | fa2 (balance : HomeBalance)
deriving DecidableEq, Repr

def Demand.kind : Demand → Kind
  | .ca1 _ => .ca1
  | .ca2 _ => .ca2
  | .ca3 _ => .ca3
  | .ca4 _ => .ca4
  | .ga1 _ => .ga1
  | .se1 _ => .se1
  | .br1 _ => .br1
  | .br2 _ => .br2
  | .fa2 _ => .fa2

/-- The ids of teams that a demand mentions, in the order in which they are checked. -/
def Demand.teamIds : Demand → List Int
  | .ca1 d => d.teams
  | .ca2 d => d.teams ++ d.opponents
  | .ca3 d => d.teams ++ d.opponents
  | .ca4 d => d.teams ++ d.opponents
  | .ga1 d => d.meetings.flatMap fun m => [m.home, m.away]
  | .se1 d => d.teams
  | .br1 d => d.teams
  | .br2 d => d.teams
  | .fa2 d => d.teams

/-- The ids of slots that a demand mentions. -/
def Demand.slotIds : Demand → List Int
  | .ca1 d => d.slots
  | .ca2 d => d.slots
  | .ca3 _ => []
  | .ca4 d => d.slots
  | .ga1 d => d.slots
  | .se1 _ => []
  | .br1 d => d.slots
  | .br2 d => d.slots
  | .fa2 d => d.slots

structure Rule where
  strength : Strength
  demand : Demand
deriving DecidableEq, Repr

def Rule.kind (rule : Rule) : Kind := rule.demand.kind

end RoundRobin
