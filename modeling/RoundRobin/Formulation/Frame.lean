import RoundRobin.Failure
import RoundRobin.Formulation.Options
import RoundRobin.Formulation.Symbols
import RoundRobin.Tournament

/-! The frame of a program: what holds of every double round robin, whatever its rules. It declares
the teams, slots and pairs, the games, and the violations and counters that the rules refer to. -/

namespace RoundRobin

open Zimpl

namespace Frame

/-- Comments on the tournament. -/
def heading (t : Tournament) : List Statement :=
  (match t.name with
    | some name => [.comment ("Name: " ++ name)]
    | none => [])
  ++ [.comment (if t.phased then "Phased" else "No phase"),
    .comment ("Teams: " ++ idsText t.teams),
    .comment ("Slots: " ++ idsText t.slots),
    .blank]

/-- The pairs of teams that meet a condition. -/
def pairSet (condition : Condition) : SetTerm := .builder (.mk ["m", "n"] (times "T" "T") condition)

/-- The teams, the slots and their halves, and the pairs of teams, ordered and unordered. -/
def resources (t : Tournament) : List Statement :=
  [.param "teams" (.int t.teamCount),
    .param "slots" (.int t.slotCount),
    .blank,
    .set "T" (.range 0 ("teams" - 1)),
    .set "S" (.range 0 ("slots" - 1)),
    .set "S0" (.range 1 ("slots" - 1)),
    .set "S1" (.range 0 ("slots" / 2 - 1)),
    .set "S2" (.range ("slots" / 2) ("slots" - 1)),
    .set "SZ" (.range 0 ("slots" - 2)),
    .set "M" (pairSet (.ne "m" "n")),
    .set "MR" (pairSet (.lt "m" "n")),
    .blank,
    .param "matches_per_slot" (.card "T" / 2)]

/-- The array of violations that the soft rules of a kind share, with a member for each of them. -/
def sharedArray (t : Tournament) (options : Options) (kind : Kind) : List Statement :=
  if t.softCount kind = 0 then []
  else
    [.set kind.tag (.range 1 (.int (t.softCount kind))),
      .var (.nonnegative (kind.stem ++ "_viol") (.over kind.tag))]
    ++ if kind = .ga1 ∧ options.minPenalty = .separate then
      [.var (.nonnegative "ga1_min_viol" (.over "GA1"))]
    else []

/-- The violations that are declared before the rules. -/
def sharedArrays (t : Tournament) (options : Options) : List Statement :=
  let arrays := [Kind.ca1, .ca2, .ga1].flatMap (sharedArray t options)
  if !options.soft || arrays.isEmpty then [] else .blank :: arrays

def gameVariables (t : Tournament) : List Statement :=
  [.blank, .var (.binary "x" (times "M" "S"))]
  ++ if t.hasBreaks then
    [.var (.binary "bh" (times "T" "S0")), .var (.binary "ba" (times "T" "S0"))]
  else []

/-- Games may be left out where as many as possible are to be scheduled. -/
def exactly (options : Options) : Relation := if options.feasibility then .le else .eq

/-- Each game takes place once, and in each slot each team plays once. -/
def schedule (options : Options) : List Statement :=
  titled "Each match gets assigned to exactly one slot"
    [.subto ⟨"c1", [.over ["m", "n"] "M"],
      [⟨.sumOver (.over ["s"] "S") (playedIn "m" "n" "s"), exactly options, one⟩]⟩]
  ++ titled "At each slot, there are matches_per_slot matches"
    [.subto ⟨"c2", [.over ["s"] "S"],
      [⟨.sumOver (.over ["m", "n"] "M") (playedIn "m" "n" "s"), exactly options,
        .const "matches_per_slot"⟩]⟩]
  ++ titled "Each team plays once per slot"
    [.subto ⟨"c3", [.over ["s"] "S", .over ["t"] "T"],
      [⟨.plus [.sumOver (.over ["t", "n"] "M") (playedIn "t" "n" "s"),
          .sumOver (.over ["m", "t"] "M") (playedIn "m" "t" "s")],
        exactly options, one⟩]⟩]

/-- The number of games that fills every slot. -/
def fixedCount (options : Options) : List Statement :=
  if options.fixGameCount then
    titled "Fix the number of scheduled matches"
      [.subto ⟨"f1", [],
        [⟨.sumOver (.over ["m", "n", "s"] (times "M" "S")) (playedIn "m" "n" "s"), .eq,
          .const ("slots" * "teams" / 2)⟩]⟩]
  else []

/-- The families of odd sets of teams, each with the name of its constraint and the size of the
sets. -/
def oddFamilies (t : Tournament) (options : Options) : List (String × Nat) :=
  match options.oddSets with
  | .none => []
  | .three => [("c6", 3)]
  | .all =>
    ((List.range (t.teamCount / 2 + 1)).filter fun size => 3 ≤ size && size % 2 = 1).map fun size =>
      ("cos" ++ toString size, size)

/-- In each slot, some team of each odd set plays a team outside it. -/
def oddFamily (name : String) (size : Nat) : List Statement :=
  let family := "K" ++ toString size
  let indices := "I" ++ toString size
  let member := SetTerm.member family "i"
  titled ("Odd set inequalities for subsets of " ++ toString size ++ " teams")
    [.setFamily family (.subsets "T" size),
      .set indices (.indexset family),
      .subto ⟨name, [.over ["s"] "S", .over ["i"] indices],
        [⟨.sumOver (.over ["m", "n"] (times member (.minus "T" member))) (eitherWay "m" "n" "s"),
          .ge, one⟩]⟩]

/-- A team that plays at the same venue in two slots running has a break in the second. -/
def breakCount (t : Tournament) : List Statement :=
  let home := fun slot => Linear.sumOver (.over ["a"] (othersThan "t")) (playedIn "t" "a" slot)
  let away := fun slot => Linear.sumOver (.over ["h"] (othersThan "t")) (playedIn "h" "t" slot)
  let twice := fun (games : Arith → Linear) (indicator : String) =>
    Row.mk (.diff (.plus [games ("s" - 1), games "s"]) one) .le (.var indicator ["t", "s"])
  if t.hasBreaks then
    titled "Count breaks"
      [.subto ⟨"br_count", [.over ["t"] "T", .over ["s"] "S0"], [twice home "bh", twice away "ba"]⟩]
  else []

/-- In the first half of a phased season each pairing is played once. Where the halves mirror each
other this follows from the mirror. -/
def halves (t : Tournament) (options : Options) : List Statement :=
  if t.phased && !options.symmetric then
    titled "Each pairing once per half season"
      [.subto ⟨"c4", [.over ["m", "n"] "MR"],
        [⟨.sumOver (.over ["s"] "S1") (eitherWay "m" "n" "s"), exactly options, one⟩]⟩]
  else []

/-- The home games of each team up to each slot. -/
def homeGames (t : Tournament) : List Statement :=
  let upper := if t.phased then Arith.min ("s" + 1) (.card "S" / 2) else "s" + 1
  if t.hasBalance then
    titled "Home games played up to and including slot s"
      [.var ⟨"hg", .bound (.over ["t", "s"] (times "T" "S")), .integer, some 0, some upper⟩,
        .subto ⟨"hg_count", [.over ["t"] "T", .over ["s"] "S"],
          [⟨.sumOver (.over ["a", "p"] (times (othersThan "t") (.range 0 "s")))
              (playedIn "t" "a" "p"), .eq, .var "hg" ["t", "s"]⟩]⟩]
  else []

/-- The return game takes place half a season later. -/
def mirror (options : Options) : List Statement :=
  if options.symmetric then
    titled "Second half mirrors the first"
      [.subto ⟨"c5",
        [.over ["m", "n"] "M", .over ["s"] (.range 0 (.floor (("slots" - 1) / 2)))],
        [⟨playedIn "m" "n" "s", .eq, playedIn "n" "m" ("s" + "slots" / 2)⟩]⟩]
  else []

/-- The frame of the program of a tournament. -/
def statements (t : Tournament) (options : Options) : Program :=
  heading t ++ resources t ++ sharedArrays t options ++ gameVariables t ++ schedule options
    ++ fixedCount options
    ++ (oddFamilies t options).flatMap (fun (name, size) => oddFamily name size)
    ++ breakCount t ++ halves t options ++ homeGames t ++ mirror options

end Frame

end RoundRobin
