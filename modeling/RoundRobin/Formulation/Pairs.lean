import RoundRobin.Formulation.Fragment

/-! Rules on each pair of listed teams: the separation of their two games, and the balance of their
home games. -/

namespace RoundRobin

open Zimpl

/-- The unordered pairs of listed teams, the lesser id first. -/
def pairsOf (teams : List Int) : Index :=
  .mk ["m", "n"] (times (.ids teams) (.ids teams)) (.lt "m" "n")

/-- At least `min` slots between the two games of each pair. The slot of a game is the sum over all
slots of the slot, counted from one, times the game in it. -/
def Separation.fragment (separation : Separation) (strength : Strength) (rule : Numbered) :
    Fragment :=
  let pairs := pairsOf separation.teams
  let position := fun home away => Linear.scaled ("s" + 1) (playedIn home away "s")
  let distance :=
    Linear.abs (.sumOver (.over ["s"] "S") (.diff (position "m" "n") (position "n" "m")))
  strength.relax (.array rule.violationName (.bound pairs) ["m", "n"] pairs) fun violation =>
    [⟨rule.name, [pairs], [⟨distance, .ge, atLeast (separation.min + 1) violation⟩]⟩]

/-- At each listed slot, the home games so far of the teams of each pair differ by at most
`limit`. -/
def HomeBalance.fragment (balance : HomeBalance) (strength : Strength) (rule : Numbered) :
    Fragment :=
  let pairSet := "FA2_" ++ toString rule.number
  let homeGames := fun team => Linear.var "hg" [.name team, "s"]
  let atMostAhead := fun violation a b =>
    Row.mk (.diff (homeGames a) (homeGames b)) .le (atMost balance.limit violation)
  let fragment :=
    strength.relax
      (.array rule.violationName (.over pairSet) ["m", "n"] (.over ["m", "n"] pairSet))
      fun violation =>
        [⟨rule.name, [.over ["m", "n"] pairSet, .over ["s"] (.ids balance.slots)],
          [atMostAhead violation "m" "n", atMostAhead violation "n" "m"]⟩]
  fragment.declare [.set pairSet (.builder (pairsOf balance.teams))]

end RoundRobin
