import RoundRobin.Formulation.Fragment

/-! Capacity rules: upper bounds on the number of games of listed teams. -/

namespace RoundRobin

open Zimpl

/-- Games are capped from above only. -/
def checkMin (kind : Kind) (min : Nat) : Except Failure Unit :=
  if min = 0 then .ok () else .error (.unsupportedAttribute kind "min" (toString min))

/-- At most `max` home or away games of each listed team in the listed slots. -/
def SideCap.fragment (cap : SideCap) (strength : Strength) (rule : Numbered) : Fragment :=
  let game := match cap.side with
    | .away => playedIn "n" "t" "s"
    | _ => playedIn "t" "n" "s"
  let games :=
    .sumOver (.over ["n"] (othersThan "t")) (.sumOver (.over ["s"] (.ids cap.slots)) game)
  strength.relax (.member "ca1_viol" rule.softPlace) fun violation =>
    [⟨rule.name, [.over ["t"] (.ids cap.teams)], [⟨games, .le, atMost cap.max violation⟩]⟩]

/-- At most `max` games of each listed team against the opponents in the listed slots. -/
def OpponentCap.fragment (cap : OpponentCap) (strength : Strength) (rule : Numbered) : Fragment :=
  let games := .sumOver (.mk ["s", "m"] (times (.ids cap.slots) (.ids cap.opponents)) (.ne "m" "t"))
    (onSide cap.side (playedIn "t" "m" "s") (playedIn "m" "t" "s"))
  strength.relax (.member "ca2_viol" rule.softPlace) fun violation =>
    [⟨rule.name, [.over ["t"] (.ids cap.teams)], [⟨games, .le, atMost cap.max violation⟩]⟩]

/-- A window has at least two slots. -/
def WindowCap.check (cap : WindowCap) : Except Failure Unit := do
  checkMin .ca3 cap.min
  if cap.window < 2 then .error (.unsupportedAttribute .ca3 "intp" (toString cap.window))
  else .ok ()

/-- The slot `back` places before the bound slot. -/
def slotBack (back : Nat) : Arith := if back = 0 then "s" else .sub "s" (.int back)

/-- At most `max` games of each listed team against the opponents in each window of slots. A window
is known by its last slot. -/
def WindowCap.fragment (cap : WindowCap) (strength : Strength) (rule : Numbered) : Fragment :=
  let windowEnds := SetTerm.minus "S" (.range 0 (.int (cap.window - 2 : Nat)))
  let games := .sumOver (.over ["m"] (.minus (.ids cap.opponents) (.single "t")))
    (.plus ((List.range cap.window).map fun back =>
      onSide cap.side (playedIn "t" "m" (slotBack back)) (playedIn "m" "t" (slotBack back))))
  strength.relax (.array rule.violationName (.over windowEnds) ["s"] (.over ["s"] windowEnds))
    fun violation =>
      [⟨rule.name, [.over ["t"] (.ids cap.teams), .over ["s"] windowEnds],
        [⟨games, .le, atMost cap.max violation⟩]⟩]

/-- At most `max` games between the listed teams and the opponents, over the listed slots together
or in each of them. -/
def GroupCap.fragment (cap : GroupCap) (strength : Strength) (rule : Numbered) : Fragment :=
  let slots := SetTerm.ids cap.slots
  let game := onSide cap.side (playedIn "m" "n" "s") (playedIn "n" "m" "s")
  match cap.scope with
  | .global =>
    let domain := SetTerm.product [.ids cap.teams, .ids cap.opponents, slots]
    let games := .sumOver (.mk ["m", "n", "s"] domain (.ne "m" "n")) game
    strength.relax (.scalar rule.violationName) fun violation =>
      [⟨rule.name, [], [⟨games, .le, atMost cap.max violation⟩]⟩]
  | .every =>
    let domain := times (.ids cap.teams) (.ids cap.opponents)
    let games := .sumOver (.mk ["m", "n"] domain (.ne "m" "n")) game
    strength.relax (.array rule.violationName (.over slots) ["s"] (.over ["s"] slots))
      fun violation =>
        [⟨rule.name, [.over ["s"] slots], [⟨games, .le, atMost cap.max violation⟩]⟩]

end RoundRobin
