import RoundRobin.Rule.Basic
import RoundRobin.Zimpl.Program

/-! The symbols that the parts of a program share. `T` is the set of teams, `S` of slots and `M` of
pairs of different teams; `x[m,n,s]` says that team `m` plays at home to team `n` in slot `s`. -/

namespace RoundRobin

open Zimpl

/-- The game of `home` against `away` in a slot. -/
def playedIn (home away slot : Arith) : Linear := .var "x" [home, away, slot]

/-- The product of two sets. -/
def times (a b : SetTerm) : SetTerm := .product [a, b]

/-- The teams other than a bound one. -/
def othersThan (team : String) : SetTerm := .minus "T" (.single team)

def one : Linear := .const 1

/-- The terms that a side counts, of the home and the away games. -/
def onSide (side : Side) (home away : Linear) : Linear :=
  .plus ((if side.countsHome then [home] else []) ++ if side.countsAway then [away] else [])

/-- The games between two teams in a slot, at either venue. -/
def eitherWay (a b slot : Arith) : Linear := .plus [playedIn a b slot, playedIn b a slot]

/-- A comment and what it introduces, behind a blank line. -/
def titled (title : String) (statements : List Statement) : List Statement :=
  .blank :: .comment title :: statements

end RoundRobin
