import RoundRobin.Formulation.Options
import RoundRobin.Formulation.Symbols
import RoundRobin.Note

/-! The end of a program: its objective, and the cutoff on part of the objective. -/

namespace RoundRobin

open Zimpl

/-- As many games as possible. -/
def mostGames : Objective :=
  ⟨.maximize, "games", [.sumOver (.over ["m", "n", "s"] (times "M" "S")) (playedIn "m" "n" "s")]⟩

/-- As little violation as possible, each charge counted once. -/
def leastViolation (charges : List Linear) : Objective := ⟨.minimize, "violation", charges⟩

/-- The charges that a cutoff bounds. -/
def Cutoff.bounded (cutoff : Cutoff) (charges : List Linear) : List Linear :=
  charges.drop cutoff.skip

/-- The cutoff as a constraint, unless it bounds nothing. -/
def Cutoff.statements (cutoff : Cutoff) (charges : List Linear) : List Statement :=
  if (cutoff.bounded charges).isEmpty then []
  else
    [.blank,
      .subto ⟨"oc1", [], [⟨.plus (cutoff.bounded charges), .le, .const (.int cutoff.value)⟩]⟩]

/-- The objective, with the cutoff before it. Without soft rules there is nothing to minimize. -/
def goal (options : Options) (charges : List Linear) : List Statement :=
  if options.feasibility then [.blank, .objective mostGames]
  else if !options.soft then []
  else
    (match options.cutoff with
      | some cutoff => cutoff.statements charges
      | none => [])
    ++ if charges.isEmpty then [] else [.blank, .objective (leastViolation charges)]

/-- Apart from blank lines, the end of a program has the cutoff and one of the two objectives. -/
theorem mem_goal {options : Options} {charges : List Linear} {statement : Statement}
    (h : statement ∈ goal options charges) :
    statement = .blank ∨ statement = .objective mostGames ∨ options.soft = true ∧
      ((∃ cutoff, options.cutoff = some cutoff ∧ cutoff.bounded charges ≠ [] ∧ statement =
          .subto ⟨"oc1", [], [⟨.plus (cutoff.bounded charges), .le, .const (.int cutoff.value)⟩]⟩) ∨
        charges ≠ [] ∧ statement = .objective (leastViolation charges)) := by
  unfold goal at h
  split at h
  · simp only [List.mem_cons, List.not_mem_nil, or_false] at h
    exact h.imp_right .inl
  · split at h
    · exact nomatch h
    · rename_i hsoft
      have hsoft : options.soft = true := by simpa using hsoft
      rcases List.mem_append.mp h with h | h
      · split at h
        · rename_i cutoff hcutoff
          unfold Cutoff.statements at h
          split at h
          · exact nomatch h
          · rename_i hbounded
            simp only [List.mem_cons, List.not_mem_nil, or_false] at h
            exact h.imp_right fun h =>
              .inr ⟨hsoft, .inl ⟨cutoff, hcutoff, by simpa using hbounded, h⟩⟩
        · exact nomatch h
      · split at h
        · exact nomatch h
        · rename_i hcharges
          simp only [List.mem_cons, List.not_mem_nil, or_false] at h
          exact h.imp_right fun h => .inr ⟨hsoft, .inr ⟨by simpa using hcharges, h⟩⟩

def goalNotes (options : Options) (charges : List Linear) : List Note :=
  if options.feasibility then if charges.isEmpty then [] else [.chargesDropped]
  else if !options.soft then []
  else
    .charges charges.length :: match options.cutoff with
      | some cutoff =>
        if (cutoff.bounded charges).isEmpty then [.cutoffIgnored charges.length cutoff.skip] else []
      | none => []

end RoundRobin
