import RoundRobin.Proofs.Charging.Strict
import RoundRobin.Proofs.Reframing

/-! Cutoffs on an objective. A cutoff bounds what the objective charges behind its first terms by
one more row, and changes nothing else: without charges to bound, the program is the same as without
cutoff. -/

namespace RoundRobin

open Zimpl

/-- The same options without a cutoff. -/
def Options.uncut (options : Options) : Options := { options with cutoff := none }

/-- Whether a cutoff is set and bounds some of the charges of an objective. -/
structure Options.Bounds (options : Options) (cutoff : Cutoff) (charges : List Linear) : Prop where
  soft : options.soft = true
  full : options.feasibility = false
  set : options.cutoff = some cutoff
  more : cutoff.skip < charges.length

/-- The row of a cutoff. -/
def Cutoff.block (cutoff : Cutoff) (charges : List Linear) : Subto :=
  ⟨"oc1", [], [⟨.plus (cutoff.bounded charges), .le, .const (.int cutoff.value)⟩]⟩

theorem Options.agreeOnRules_uncut (options : Options) : options.AgreeOnRules options.uncut :=
  ⟨rfl, rfl⟩

theorem Cutoff.isEmpty_bounded {cutoff : Cutoff} {charges : List Linear} :
    (cutoff.bounded charges).isEmpty = true ↔ charges.length ≤ cutoff.skip := by
  rw [List.isEmpty_iff, bounded, List.drop_eq_nil_iff]

section Goal

variable {options : Options} {cutoff : Cutoff} {charges : List Linear}

/-- A cutoff that bounds some charges stands in front of the objective. -/
theorem Options.Bounds.goal_eq (h : options.Bounds cutoff charges) :
    goal options charges = [.blank, .subto (cutoff.block charges)] ++
      goal options.uncut charges := by
  have hbounded : ¬ (cutoff.bounded charges).isEmpty = true :=
    Cutoff.isEmpty_bounded.not.mpr (not_le.mpr h.more)
  simp only [goal, Options.uncut, h.full, h.soft, h.set, Cutoff.statements, if_neg hbounded]
  rfl

/-- A cutoff that bounds nothing leaves no trace. -/
theorem goal_eq_uncut (h : ∀ cutoff, ¬ options.Bounds cutoff charges) :
    goal options charges = goal options.uncut charges := by
  cases hfull : options.feasibility with
  | true => simp only [goal, Options.uncut, hfull, if_true]
  | false =>
    cases hsoft : options.soft with
    | false => simp [goal, Options.uncut, hfull, hsoft]
    | true =>
      cases hcutoff : options.cutoff with
      | none => simp [goal, Options.uncut, hfull, hsoft, hcutoff]
      | some cutoff =>
        have hbounded : (cutoff.bounded charges).isEmpty = true :=
          Cutoff.isEmpty_bounded.mpr
            (not_lt.mp fun hmore => h cutoff ⟨hsoft, hfull, hcutoff, hmore⟩)
        simp [goal, Options.uncut, hfull, hsoft, hcutoff, Cutoff.statements, hbounded]

/-- The row holds if and only if all charges but the first ones come to no more than its value. -/
theorem Cutoff.block_holds_iff {env : Env} {values : Assignment} {total : Rat} (cutoff : Cutoff)
    (htotal : Linear.sumOf? env values charges = some total) :
    ∃ first, Linear.sumOf? env values (charges.take cutoff.skip) = some first ∧
      ((cutoff.block charges).Holds env values ↔ total - first ≤ cutoff.value) := by
  rw [← List.take_append_drop cutoff.skip charges, Linear.sumOf?_append] at htotal
  obtain ⟨first, hfirst, htotal⟩ := Option.bind_eq_some_iff.mp htotal
  obtain ⟨rest, hrest, rfl⟩ := Option.map_eq_some_iff.mp htotal
  refine ⟨first, hfirst, ?_⟩
  have hlhs := (Linear.value?_plus env values _).trans hrest
  have hrhs : (Linear.const (.int cutoff.value)).value? env values = some (cutoff.value : Rat) :=
    rfl
  rw [block, Subto.holds_row, Row.holds_iff hlhs hrhs]
  show rest ≤ cutoff.value ↔ first + rest - first ≤ cutoff.value
  rw [add_sub_cancel_left]

end Goal

/-- What a cutoff adds to a program. -/
structure Tournament.CutBy (t : Tournament) (options : Options)
    (program uncut : Program) : Prop where
  /-- The row is there if and only if the cutoff bounds some charges. -/
  present : (∃ block ∈ program.subtos, block.name = "oc1") ↔
    ∃ cutoff, options.Bounds cutoff (t.charges options)
  /-- The row bounds the value of the objective without that of its first terms. -/
  bounds : ∀ cutoff, options.Bounds cutoff (t.charges options) → ∃ goal,
    program.subtos.filter (·.name = "oc1") = [cutoff.block (t.charges options)] ∧
    program.objectives = [goal] ∧ goal.direction = .minimize ∧ goal.name = "violation" ∧
    goal.terms = t.charges options ∧ ∃ env, program.env? = some env ∧
      ∀ values, ∃ total first, goal.value? env values = some total ∧
        Linear.sumOf? env values (goal.terms.take cutoff.skip) = some first ∧
        ((cutoff.block (t.charges options)).Holds env values ↔ total - first ≤ cutoff.value)
  /-- The row and the blank line before it are all that the cutoff adds. -/
  statements : ∀ cutoff, options.Bounds cutoff (t.charges options) → ∃ before after,
    program = before ++ [.blank, .subto (cutoff.block (t.charges options))] ++ after ∧
      uncut = before ++ after
  objectives : program.objectives = uncut.objectives
  otherwise : (∀ cutoff, ¬ options.Bounds cutoff (t.charges options)) → program = uncut

namespace Tournament

variable {t : Tournament} {options : Options} {cutoff : Cutoff}

theorem program_uncut (t : Tournament) (options : Options) : t.program options.uncut =
    Frame.statements t options ++ t.numbered.flatMap (Numbered.statements options)
      ++ goal options.uncut (t.charges options) := by
  rw [program, ← options.agreeOnRules_uncut.statements_eq,
    ← options.agreeOnRules_uncut.charges_eq t]
  rfl

/-- The rows named for a cutoff are those of the goal. -/
theorem filter_subtos_cutoff (t : Tournament) (options : Options) :
    (Program.subtos (t.program options)).filter (·.name = "oc1") =
      Program.subtos (goal options (t.charges options)) := by
  have hframe : (Program.subtos (Frame.statements t options)).filter (·.name = "oc1") = [] :=
    List.filter_eq_nil_iff.mpr fun block hblock h =>
      (Frame.plain_of_mem_subtos hblock).1 (of_decide_eq_true h)
  have hrules : (t.numbered.flatMap fun rule => (rule.fragment options).subtos).filter
      (·.name = "oc1") = [] :=
    List.filter_eq_nil_iff.mpr fun block hblock h => by
      obtain ⟨rule, -, hblock⟩ := List.mem_flatMap.mp hblock
      exact Numbered.name_ne_of_mem_subtos hblock (of_decide_eq_true h)
  have hgoal : (Program.subtos (goal options (t.charges options))).filter (·.name = "oc1") =
      Program.subtos (goal options (t.charges options)) :=
    List.filter_eq_self.mpr fun block hblock => decide_eq_true (name_of_mem_cutoff hblock)
  rw [t.subtos_program, List.filter_append, List.filter_append, hframe, hrules, hgoal]
  rfl

theorem subtos_goal_uncut (options : Options) (charges : List Linear) :
    Program.subtos (goal options.uncut charges) = [] :=
  subtos_goal_of_no_cutoff (fun _ => rfl) charges

theorem filter_subtos_of_bounds (h : options.Bounds cutoff (t.charges options)) :
    (Program.subtos (t.program options)).filter (·.name = "oc1") =
      [cutoff.block (t.charges options)] := by
  rw [t.filter_subtos_cutoff, h.goal_eq, Program.subtos_append, subtos_goal_uncut]
  rfl

theorem exists_cutoff_iff : (∃ block ∈ Program.subtos (t.program options), block.name = "oc1") ↔
    ∃ cutoff, options.Bounds cutoff (t.charges options) := by
  have hmem : (∃ block ∈ Program.subtos (t.program options), block.name = "oc1") ↔
      (Program.subtos (t.program options)).filter (·.name = "oc1") ≠ [] := by
    simp [List.filter_eq_nil_iff]
  rw [hmem]
  constructor
  · intro hsome
    by_contra hnone
    rw [t.filter_subtos_cutoff, goal_eq_uncut (not_exists.mp hnone), subtos_goal_uncut] at hsome
    exact hsome rfl
  · rintro ⟨cutoff, hbounds⟩
    rw [filter_subtos_of_bounds hbounds]
    exact List.cons_ne_nil _ _

theorem objectives_uncut (t : Tournament) (options : Options) :
    Program.objectives (t.program options) = Program.objectives (t.program options.uncut) := by
  rw [t.objectives_program, t.objectives_program, ← options.agreeOnRules_uncut.charges_eq t]
  by_cases hbounds : ∃ cutoff, options.Bounds cutoff (t.charges options)
  · obtain ⟨cutoff, hbounds⟩ := hbounds
    rw [hbounds.goal_eq, Program.objectives_append]
    rfl
  · rw [goal_eq_uncut (not_exists.mp hbounds)]

/-- A cutoff that bounds some charges of a formulated tournament adds one row to its program, and
any other leaves it as it is. -/
theorem cut_off {program : Program} (h : t.formulate options = .ok program) :
    ∃ uncut, t.formulate options.uncut = .ok uncut ∧ t.CutBy options program uncut := by
  obtain ⟨rfl, hcheck⟩ := of_formulate h
  have huncut : t.formulate options.uncut = .ok (t.program options.uncut) :=
    formulate_eq_ok (options.agreeOnRules_uncut.check_eq ▸ hcheck)
  refine ⟨_, huncut, exists_cutoff_iff, fun cutoff hbounds => ?_, fun cutoff hbounds => ?_,
    t.objectives_uncut options, fun hnone => ?_⟩
  · obtain ⟨env, henv, stage⟩ := stage hcheck
    have hsome : ¬ (t.charges options).isEmpty = true := by
      rw [List.isEmpty_iff_length_eq_zero]
      have := hbounds.more
      omega
    have hgoal : Program.objectives (t.program options) = [leastViolation (t.charges options)] := by
      rw [t.objectives_program, objectives_goal hbounds.soft hbounds.full, if_neg hsome]
    refine ⟨_, filter_subtos_of_bounds hbounds, hgoal, rfl, rfl, rfl, env, henv, fun values => ?_⟩
    have htotal : Linear.sumOf? env values (t.charges options) = _ :=
      stage.charges_value hbounds.soft hcheck
    obtain ⟨first, hfirst, hholds⟩ := cutoff.block_holds_iff htotal
    exact ⟨_, first, htotal, hfirst, hholds⟩
  · refine ⟨_, goal options.uncut (t.charges options), ?_, t.program_uncut options⟩
    rw [program, hbounds.goal_eq, ← List.append_assoc]
  · rw [t.program_uncut, ← goal_eq_uncut hnone]
    rfl

end Tournament

/-- Of two charges the first is left free, and the row bounds the second. -/
theorem cut_off_contrary :
    let options : Options := { cutoff := some ⟨-4, 1⟩ }
    let program := contraryTournament.program options
    ∃ uncut, contraryTournament.formulate options.uncut = .ok uncut ∧
      contraryTournament.CutBy options program uncut ∧
      ∃ block ∈ program.subtos, block.name = "oc1" := by
  intro options program
  have hprogram : contraryTournament.formulate options = .ok program := rfl
  obtain ⟨uncut, huncut, hcut⟩ := Tournament.cut_off hprogram
  exact ⟨uncut, huncut, hcut, hcut.present.mpr ⟨⟨-4, 1⟩, rfl, rfl, rfl, by decide⟩⟩

end RoundRobin
