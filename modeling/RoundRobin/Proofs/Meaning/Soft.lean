import RoundRobin.Proofs.Meaning.Hard
import RoundRobin.Proofs.Meaning.Least

/-! Programs with soft rules. The games of a season that keeps all hard rules can always be
completed, and the least cost is what each soft rule charges for what it is short of. -/

namespace RoundRobin

open Zimpl

variable {t : Tournament} {options : Options} {env : Env} {values : Assignment} {plays : Timetable}

theorem Frame.objectives_oddFamilies (families : List (String × Nat)) :
    Program.objectives (families.flatMap fun (name, size) => Frame.oddFamily name size) = [] := by
  rw [Program.objectives, List.filterMap_flatMap, List.flatMap_eq_nil_iff]
  exact fun _ _ => rfl

theorem Frame.objectives_eq_nil (t : Tournament) (options : Options) :
    Program.objectives (Frame.statements t options) = [] := by
  have hsilent := fun part hpart =>
    Program.objectives_of_isSilent (Frame.isSilent_parts t options part hpart)
  have hpreliminary := fun part hpart =>
    Program.objectives_of_isPreliminary (Frame.isPreliminary_parts t options part hpart)
  simp only [List.forall_mem_cons] at hsilent hpreliminary
  obtain ⟨hheading, hschedule, hfixed, hcount, hhalves, hmirror, -⟩ := hsilent
  obtain ⟨-, hresources, harrays, hvariables, -⟩ := hpreliminary
  have hhome : Program.objectives (Frame.homeGames t) = [] := by
    unfold Frame.homeGames
    dsimp only
    split <;> rfl
  simp only [Frame.statements, Program.objectives_append, hheading, hresources, harrays, hvariables,
    hschedule, hfixed, Frame.objectives_oddFamilies, hcount, hhalves, hhome, hmirror,
    List.append_nil]

theorem Tournament.objectives_program (t : Tournament) (options : Options) :
    Program.objectives (t.program options) =
      Program.objectives (goal options (t.charges options)) := by
  have hrules : Program.objectives (t.numbered.flatMap (Numbered.statements options)) = [] := by
    rw [Program.objectives, List.filterMap_flatMap, List.flatMap_eq_nil_iff]
    exact fun rule _ => rule.objectives_statements options
  rw [Tournament.program, Program.objectives_append, Program.objectives_append,
    Frame.objectives_eq_nil, hrules, List.nil_append, List.nil_append]

/-- The objective of a program with soft rules is the sum of their charges. -/
theorem Tournament.objectiveValue?_program (henv : (t.program options).env? = some env)
    (hsoft : options.soft = true) (hfull : options.feasibility = false)
    (hcutoff : options.cutoff = none) :
    (t.program options).objectiveValue? values =
      Linear.sumOf? env values (t.charges options) := by
  rw [Program.objectiveValue?, henv, Program.findObjective?, t.objectives_program, goal, hfull,
    hsoft, hcutoff]
  cases t.charges options <;> rfl

theorem Numbered.not_skipped (hsoft : options.soft = true) (rule : Numbered) :
    rule.isSkipped options = false := by
  rw [Numbered.isSkipped, Rule.isSkipped, hsoft, Bool.not_true, Bool.and_false]

/-- The cost of some values is what each rule pays for what it gives way by. -/
theorem Stage.charges_value (stage : Stage t options env) (hsoft : options.soft = true)
    (hcheck : ∀ rule ∈ t.numbered, rule.check options = .ok ()) :
    Linear.sumOf? env values (t.charges options) =
      some (t.numbered.map fun rule => (rule.rule.strength.penalty
        * ∑ place ∈ rule.rule.demand.places t options, rule.slack values place : Rat)).sum := by
  refine Linear.sumOf?_flatMap fun rule hmem => ?_
  have hskip := rule.not_skipped hsoft
  exact rule.charges_value stage.toScene stage.symbols hmem (hcheck rule hmem) hskip
    (stage.known rule hmem hskip)

/-- The least violations of a season that keeps all hard rules go with it. -/
theorem Timetable.IsSeason.leastValues_hold (hseason : plays.IsSeason t options)
    (hwell : t.WellFormed) (hcheck : ∀ rule ∈ t.numbered, rule.check options = .ok ())
    (hfull : options.feasibility = false) (hcutoff : options.cutoff = none)
    (hkept : ∀ rule ∈ t.rules, rule.strength = .hard → rule.demand.Kept t (plays.tally t)) :
    (t.program options).Holds (plays.leastValues t options) := by
  refine hseason.holds hwell hcheck hfull (fun _ => hcutoff)
    (plays.shows_leastValues t options) (fun _ kind hkind => ?_) fun rule hmem _ place hplace => ?_
  · have hname : ∀ kind ∈ [Kind.ca1, .ca2, .ga1],
        kind.stem ++ "_viol" ∉ ["x", "bh", "ba", "hg"] := by
      decide
    exact ⟨fun place _ => leastValues_nonneg (hname kind hkind) _,
      fun _ _ place _ => leastValues_nonneg (by decide) _⟩
  · cases hstrength : rule.rule.strength with
    | hard =>
      exact (Numbered.kept_iff_short_le hstrength).mp
        (hkept rule.rule (Tournament.rule_mem hmem) hstrength) place hplace
    | soft penalty => exact (slack_leastValues hmem (by rw [hstrength]; rfl) hplace).ge

/-- Hard rules are charged nothing. -/
theorem sum_soft (rules : List Rule) (f : Rule → Rat) :
    ((rules.filter fun rule => rule.strength.isSoft).map fun rule =>
      (rule.strength.penalty * f rule : Rat)).sum =
      (rules.map fun rule => (rule.strength.penalty * f rule : Rat)).sum := by
  induction rules with
  | nil => rfl
  | cons rule rules ih =>
    rw [List.map_cons, List.sum_cons, ← ih]
    cases hstrength : rule.strength.isSoft with
    | true => rw [List.filter_cons, if_pos hstrength, List.map_cons, List.sum_cons]
    | false =>
      have hpenalty : rule.strength.penalty = 0 := by
        cases hhard : rule.strength with
        | hard => rfl
        | soft penalty =>
          rw [hhard] at hstrength
          exact nomatch hstrength
      rw [List.filter_cons, if_neg (by rw [hstrength]; decide), hpenalty, Nat.cast_zero, zero_mul,
        zero_add]

theorem Timetable.cost_eq (plays : Timetable) (t : Tournament) (options : Options) :
    plays.cost t options = (t.numbered.map fun rule => (rule.rule.strength.penalty
      * ∑ place ∈ rule.rule.demand.places t options,
        rule.rule.demand.short t (plays.tally t) options place : Rat)).sum := by
  rw [Timetable.cost, sum_soft, ← t.map_rule_numbered, List.map_map]
  refine congrArg List.sum (List.map_congr_left fun rule _ => ?_)
  exact congrArg _ (Demand.excess_eq_sum (Demand.counted_tally plays t rule.rule.demand))

section Programs

variable (hcheck : ∀ rule ∈ t.numbered, rule.check options = .ok ())
  (hsoft : options.soft = true) (hfull : options.feasibility = false)
  (hcutoff : options.cutoff = none)
include hcheck hsoft hfull hcutoff

theorem Tournament.objectiveValue?_eq (values : Assignment) :
    (t.program options).objectiveValue? values =
      some (t.numbered.map fun rule => (rule.rule.strength.penalty
        * ∑ place ∈ rule.rule.demand.places t options, rule.slack values place : Rat)).sum := by
  obtain ⟨env, henv, stage⟩ := Tournament.stage hcheck
  rw [Tournament.objectiveValue?_program henv hsoft hfull hcutoff]
  exact stage.charges_value hsoft hcheck

theorem Timetable.objectiveValue?_leastValues (plays : Timetable) :
    (t.program options).objectiveValue? (plays.leastValues t options) =
      some (plays.cost t options) := by
  rw [Tournament.objectiveValue?_eq hcheck hsoft hfull hcutoff, Timetable.cost_eq]
  refine congrArg some (congrArg List.sum (List.map_congr_left fun rule hmem => ?_))
  cases hstrength : rule.rule.strength with
  | hard => simp [Strength.penalty]
  | soft penalty =>
    refine congrArg _ (Finset.sum_congr rfl fun place hplace => ?_)
    exact slack_leastValues hmem (by rw [hstrength]; rfl) hplace

variable (hwell : t.WellFormed)
include hwell

/-- No values for which the program holds cost less than the season does. -/
theorem Zimpl.Assignment.Plays.cost_le (hplays : values.Plays t plays)
    (hholds : (t.program options).Holds values) {cost : Rat}
    (hcost : (t.program options).objectiveValue? values = some cost) :
    plays.cost t options ≤ cost := by
  rw [Tournament.objectiveValue?_eq hcheck hsoft hfull hcutoff, Option.some.injEq] at hcost
  rw [← hcost, Timetable.cost_eq]
  have hshort := (hplays.short_le hwell hcheck hfull (fun _ => hcutoff) hholds).2
  refine List.sum_le_sum fun rule hmem => mul_le_mul_of_nonneg_left ?_ (Nat.cast_nonneg _)
  exact Finset.sum_le_sum (hshort rule hmem (rule.not_skipped hsoft))

end Programs

/-- The games of a timetable can be completed if and only if it is a season that keeps all hard
rules. The least cost of doing so is then what the soft rules charge for their excess. -/
theorem Timetable.isLeast_cost {read? : Markup.Reader} {text : String} {program : Program}
    (hread : Tournament.readBy read? text = .ok t) (hsoft : options.soft = true)
    (hfull : options.feasibility = false) (hcutoff : options.cutoff = none)
    (hprogram : t.formulate options = .ok program) (plays : Timetable) :
    ((∃ values : Assignment, values.Plays t plays ∧ program.Holds values) ↔
      plays.IsSeason t options ∧
        ∀ rule ∈ t.rules, rule.strength = .hard → rule.demand.Kept t (plays.tally t)) ∧
    (plays.IsSeason t options →
      (∀ rule ∈ t.rules, rule.strength = .hard → rule.demand.Kept t (plays.tally t)) →
      IsLeast {cost | ∃ values : Assignment, values.Plays t plays ∧ program.Holds values ∧
        program.objectiveValue? values = some cost} (plays.cost t options)) := by
  have hwell := Tournament.wellFormed_of_readBy hread
  obtain ⟨rfl, hcheck⟩ := Tournament.of_formulate hprogram
  have hplays : (plays.leastValues t options).Plays t plays := fun p hp slot hslot =>
    (plays.shows_leastValues t options).game p hp slot hslot
  refine ⟨⟨?_, ?_⟩, fun hseason hkept => ⟨?_, ?_⟩⟩
  · rintro ⟨values, hplays, hholds⟩
    obtain ⟨hseason, hshort⟩ := hplays.short_le hwell hcheck hfull (fun _ => hcutoff) hholds
    refine ⟨hseason, fun rule hrule hhard => ?_⟩
    obtain ⟨numbered, hmem, rfl⟩ := Tournament.exists_numbered hrule
    exact (Numbered.kept_iff_short_le hhard).mpr
      (hshort numbered hmem (numbered.not_skipped hsoft))
  · rintro ⟨hseason, hkept⟩
    exact ⟨_, hplays, hseason.leastValues_hold hwell hcheck hfull hcutoff hkept⟩
  · exact ⟨_, hplays, hseason.leastValues_hold hwell hcheck hfull hcutoff hkept,
      objectiveValue?_leastValues hcheck hsoft hfull hcutoff plays⟩
  · rintro cost ⟨values, hplays, hholds, hcost⟩
    exact hplays.cost_le hcheck hsoft hfull hcutoff hwell hholds hcost

/-- Two teams that are to have as many home games as each other at all times, which they cannot, and
of which the first is not to play at home first. -/
def softPairText : String :=
  "<Instance><team id=\"0\"/><team id=\"1\"/><slot id=\"0\"/><slot id=\"1\"/><Constraints>"
    ++ "<CA1 max=\"0\" min=\"0\" mode=\"H\" penalty=\"5\" slots=\"0\" teams=\"0\" type=\"SOFT\"/>"
    ++ "<SE1 min=\"0\" mode1=\"SLOTS\" penalty=\"1\" teams=\"0;1\" type=\"HARD\"/>"
    ++ "<FA2 intp=\"0\" mode=\"H\" penalty=\"3\" slots=\"0;1\" teams=\"0;1\" type=\"SOFT\"/>"
    ++ "</Constraints></Instance>"

def softPairTournament : Tournament where
  name := none
  teams := [0, 1]
  slots := [0, 1]
  phased := false
  rules := [⟨.soft 5, .ca1 ⟨0, 0, .home, [0], [0]⟩⟩, ⟨.hard, .se1 ⟨0, [0, 1]⟩⟩,
    ⟨.soft 3, .fa2 ⟨0, [0, 1], [0, 1]⟩⟩]

theorem read_softPairText : Tournament.read softPairText = .ok softPairTournament :=
  Tournament.read_eq_ok (toList_append_ofList (toList_append_ofList (toList_append_ofList
    (toList_append_ofList String.toList_ofList)))) (by decide +kernel)

theorem cost_inTurn : (inTurn 0 1).cost softPairTournament {} = 8 := by decide +kernel

/-- Both soft rules are violated once if the first team plays at home first. -/
theorem isLeast_cost_softPair :
    IsLeast {cost | ∃ values : Assignment, values.Plays softPairTournament (inTurn 0 1) ∧
      (softPairTournament.program {}).Holds values ∧
      (softPairTournament.program {}).objectiveValue? values = some cost} 8 := by
  have hprogram : softPairTournament.formulate {} = .ok (softPairTournament.program {}) := rfl
  rw [← cost_inTurn]
  refine (Timetable.isLeast_cost read_softPairText rfl rfl rfl hprogram (inTurn 0 1)).2
    ⟨by decide, by decide, by decide, by decide⟩ ?_
  have hse1 : (Demand.se1 ⟨0, [0, 1]⟩).Kept softPairTournament
      ((inTurn 0 1).tally softPairTournament) := by
    show ∀ pair ∈ unorderedPairs [0, 1], _
    decide +kernel
  intro rule hrule hhard
  simp only [softPairTournament, List.mem_cons, List.not_mem_nil, or_false] at hrule
  rcases hrule with rfl | rfl | rfl
  · exact nomatch hhard
  · exact hse1
  · exact nomatch hhard

end RoundRobin
