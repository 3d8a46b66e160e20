import RoundRobin.Proofs.Numbering.Behind
import RoundRobin.Proofs.Meaning.Violation

/-! The rows of rules on listed meetings. The lower bound has a row only where it is not zero, and
gives way by the violation of the upper bound or by one of its own. -/

namespace RoundRobin

open Zimpl

variable {t : Tournament} {options : Options} {env : Env} {values : Assignment}
  {tally : Tally} {strength : Strength} {rule : Numbered}

/-- The violation that the lower bound gives way by. -/
def MinPenalty.violation : MinPenalty → String
  | .shared => "ga1_viol"
  | .separate => "ga1_min_viol"

/-- A rule on meetings bounds them from above and, if it asks for any, from below. -/
theorem Numbered.subtos_meetingBound (bound : MeetingBound) (options : Options)
    (strength : Strength) (rule : Numbered) : (bound.fragment options strength rule).subtos =
      ⟨rule.name, [], [⟨bound.counted, .le,
        atMost bound.max (strength.inRow? (.member "ga1_viol" rule.softPlace))⟩]⟩
      :: if bound.min = 0 then []
        else [⟨nameWith .ga1 (rule.number + 1), [], [⟨bound.counted, .ge, atLeast bound.min
          (strength.inRow? (.member options.minPenalty.violation rule.softPlace))⟩]⟩] := by
  unfold MeetingBound.fragment MeetingBound.most MeetingBound.least
  by_cases hmin : bound.min = 0
  · rw [if_pos hmin, if_pos hmin]
    exact Strength.subtos_relax _ _ _
  · rw [if_neg hmin, if_neg hmin]
    cases options.minPenalty with
    | shared =>
      exact congrArg₂ (· ++ ·) (Strength.subtos_relax _ _ _) (Strength.subtos_relax _ _ _)
    | separate =>
      exact congrArg₂ (· ++ ·) (Strength.subtos_relax _ _ _) (Strength.subtos_relax _ _ _)

theorem MeetingBound.value?_games (scene : Scene t options env) (shows : values.Shows t tally)
    (hsymbols : env.symbols = [])
    {bound : MeetingBound} (hslots : ∀ slot ∈ bound.slots, slot ∈ t.slotSet)
    (hteams : ∀ game ∈ bound.meetings, game.home ∈ t.teamSet ∧ game.away ∈ t.teamSet) :
    bound.counted.value? env values = some (bound.games tally) := by
  refine Linear.value?_sumOver (Index.runs_one (SetTerm.lists_ids _ _) (by simp [hsymbols]))
    fun slot hslot => ?_
  rw [Linear.value?_plus]
  refine Linear.sumOf?_map fun game hgame => ?_
  obtain ⟨hhome, haway⟩ := hteams game hgame
  exact (scene.bind "s" slot).value?_playedIn shows (Arith.value?_int _ _) (Arith.value?_int _ _)
    (by simp) (Finset.mem_offDiag.mpr ⟨hhome, haway, game.home_ne_away⟩)
    (hslots slot (List.mem_toFinset.mp hslot))

/-- The rows of a rule on meetings bound whatever the meetings add up to. -/
theorem MeetingBound.subtos_mean_of_games {bound : MeetingBound} {games : Rat}
    (hgames : bound.counted.value? env values = some games)
    (habove : strength.isSoft = true → env.Ranges "ga1_viol" Tuple.one (t.softPlaces .ga1) ∧
      (rule.softPlace : Int) ∈ t.softPlaces .ga1)
    (hbelow : strength.isSoft = true → options.minPenalty = .separate →
      env.Ranges "ga1_min_viol" Tuple.one (t.softPlaces .ga1)) :
    Subto.AllMean env values (bound.fragment options strength rule).subtos
      (games ≤ bound.max + strength.slack values "ga1_viol" (Tuple.one rule.softPlace) ∧
      (bound.min ≠ 0 → bound.min
        - strength.slack values options.minPenalty.violation
          (Tuple.one rule.softPlace) ≤ games)) := by
  have hviolation : strength.isSoft = true →
      env.Ranges options.minPenalty.violation Tuple.one (t.softPlaces .ga1) ∧
        (rule.softPlace : Int) ∈ t.softPlaces .ga1 := fun hsoft => by
    refine ⟨?_, (habove hsoft).2⟩
    cases hpenalty : options.minPenalty with
    | shared => exact (habove hsoft).1
    | separate => exact hbelow hsoft hpenalty
  rw [Numbered.subtos_meetingBound, ← ite_not]
  exact .cons
    (Subto.means_row (Row.means hgames (value?_atMost bound.max (givesWay_member habove))))
    (.ite fun _ => .single (Subto.means_row (Row.means hgames
      (value?_atLeast bound.min (givesWay_member hviolation)))))

end RoundRobin
