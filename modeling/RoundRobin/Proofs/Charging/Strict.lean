import RoundRobin.Proofs.Charging.Program
import RoundRobin.Proofs.Numbering.Names

/-! Leaving out soft rules. What is left of a program is its frame and its hard rules, row by row as
they were, and nothing of it gives way. -/

namespace RoundRobin

open Zimpl

/-- The same options with soft rules left out. -/
def Options.strict (options : Options) : Options := { options with soft := false }

namespace Numbered

variable {options : Options} {rule : Numbered}

theorem fragment_strict_of_hard (h : rule.rule.strength.isSoft = false) :
    rule.fragment options.strict = rule.fragment options := by
  have hskip : ∀ options, rule.isSkipped options = false :=
    fun options => by rw [isSkipped, Rule.isSkipped, h]; rfl
  rw [fragment_of_not_skipped (hskip _), fragment_of_not_skipped (hskip _)]
  rfl

theorem fragment_strict_of_soft (h : rule.rule.strength.isSoft = true) :
    rule.fragment options.strict = {} :=
  if_pos (by rw [isSkipped, Rule.isSkipped, h]; rfl)

/-- A rule that can be formulated can be left out. -/
theorem check_strict (h : rule.check options = .ok ()) : rule.check options.strict = .ok () :=
  check_of_skipped rfl (fun hskip => by simp_all [isSkipped, Rule.isSkipped, Options.strict]) h

/-- The blocks of a rule are named for its kind. -/
theorem name_of_mem_subtos {block : Subto} (h : block ∈ (rule.fragment options).subtos) :
    ∃ number, block.name = nameWith rule.rule.kind number := by
  have hname : block.name ∈ (rule.fragment options).subtos.map (·.name) := List.mem_map_of_mem h
  rw [names_subtos (List.ne_nil_of_mem h)] at hname
  obtain ⟨number, -, heq⟩ := List.mem_map.mp hname
  exact ⟨number, heq.symm⟩

theorem name_ne_of_mem_subtos {block : Subto} (h : block ∈ (rule.fragment options).subtos) :
    block.name ≠ "oc1" := by
  have hstem : ¬ rule.rule.kind.stem.toList <+: "oc1".toList := by
    cases rule.rule.kind <;> decide
  obtain ⟨number, hname⟩ := name_of_mem_subtos h
  rw [hname, nameWith_eq]
  exact (ne_append hstem).symm

/-- Each block of a soft rule gives way. -/
theorem violations_ne_nil {penalty : Nat} (hsoft : options.soft = true)
    (h : rule.rule.strength = .soft penalty) {block : Subto}
    (hblock : block ∈ (rule.fragment options).subtos) : block.violations ≠ [] := by
  have hcharges := charges_of_soft hsoft h
  obtain ⟨row, hrow⟩ := List.exists_mem_of_ne_nil _ (hcharges.nonempty block hblock)
  obtain ⟨reference, -, hviolations⟩ := hcharges.rows block hblock row hrow
  have hmem : reference ∈ block.violations :=
    List.mem_flatMap.mpr ⟨row, hrow, hviolations ▸ List.mem_singleton_self _⟩
  exact List.ne_nil_of_mem hmem

/-- A hard rule declares no variable. -/
theorem varDecls_of_hard (h : rule.rule.strength = .hard) :
    Program.varDecls (rule.fragment options).declarations = [] := by
  have hskip : rule.isSkipped options = false := by rw [isSkipped, Rule.isSkipped, h]; rfl
  rw [fragment_of_not_skipped hskip, h]
  cases rule.rule.demand with
  | ca1 cap | ca2 cap | ca3 cap | se1 separation | fa2 balance => rfl
  | ca4 cap =>
    dsimp only [GroupCap.fragment]
    split <;> rfl
  | ga1 bound =>
    dsimp only
    rw [declarations_meetingBound]
    rfl
  | br1 breaks | br2 breaks =>
    dsimp only [TeamBreaks.fragment, GroupBreaks.fragment]
    split <;> rfl

end Numbered

/-- The rows of a frame do not depend on whether soft rules are left out. -/
theorem Frame.subtos_strict (t : Tournament) (options : Options) :
    Program.subtos (Frame.statements t options.strict) =
      Program.subtos (Frame.statements t options) := by
  rw [Frame.subtos_statements, Frame.subtos_statements]
  rfl

/-- Without soft rules a frame declares no violation. -/
theorem Frame.isViolation_strict {t : Tournament} {options : Options} {decl : VarDecl}
    (h : decl ∈ Program.varDecls (Frame.statements t options.strict)) :
    isViolation decl.name = false := by
  have hnames : ∀ name ∈ ["x", "bh", "ba", "hg"], isViolation name = false := by decide
  refine hnames _ ?_
  rcases Frame.mem_varDecls.mp h with h | h | h
  · exact nomatch h
  · unfold Frame.gameVariables at h
    split at h
    · have h : decl ∈ [_, _, _] := h
      simp only [List.mem_cons, List.not_mem_nil, or_false] at h
      rcases h with rfl | rfl | rfl <;> decide
    · rw [List.mem_singleton.mp h]
      decide
  · unfold Frame.homeGames at h
    dsimp only at h
    split at h
    · rw [List.mem_singleton.mp h]
      simp
    · exact nomatch h

/-- A part of a program where soft rules are left out. -/
def Part.strict (part : Part) : Part :=
  if part.rule.strength.isSoft then { part with fragment := {} } else part

namespace Tournament

variable {t : Tournament} {options : Options}

/-- The blocks that soft rules add to a program. -/
def softBlocks (parts : List Part) : List Subto :=
  (parts.filter fun part => part.rule.strength.isSoft).flatMap fun part => part.fragment.subtos

/-- What is left of a program without soft rules: its blocks but for theirs and the cutoff, and no
violation. The rules of either program are formulated one after another, with counters of their
own. -/
structure LeftStrict (t : Tournament) (options : Options) (program strict : Program) : Prop where
  /-- Each rule has taken the same numbers in the end, and a hard rule has added the same. -/
  parts : ∃ parts counters counters', t.parts options = .ok (parts, counters) ∧
    t.parts options.strict = .ok (parts.map Part.strict, counters') ∧
    (∀ kind, counters'.numbers.count kind = counters.numbers.count kind) ∧
    program = t.assemble options parts ∧
    strict = t.assemble options.strict (parts.map Part.strict) ∧
    strict.subtos = program.subtos.filter fun block => block.name ≠ "oc1" ∧ block ∉ softBlocks parts
  declarations : ∀ decl ∈ strict.varDecls, isViolation decl.name = false
  rows : ∀ block ∈ strict.subtos, block.violations = []
  terms : ∀ goal ∈ strict.objectives, ∀ term ∈ goal.terms, term.violations = []

theorem mem_softBlocks {block : Subto} : block ∈ softBlocks (t.numberedParts options) ↔
    ∃ rule ∈ t.numbered, rule.rule.strength.isSoft = true ∧
      block ∈ (rule.fragment options).subtos := by
  simp only [softBlocks, numberedParts, List.filter_map, List.flatMap_map, List.mem_flatMap,
    List.mem_filter, Function.comp_apply, Numbered.part, and_assoc]

/-- The parts without soft rules are those of the program with the soft ones empty. -/
theorem numberedParts_strict (t : Tournament) (options : Options) :
    t.numberedParts options.strict = (t.numberedParts options).map Part.strict := by
  rw [numberedParts, numberedParts, List.map_map]
  refine List.map_congr_left fun rule _ => ?_
  rw [Function.comp_apply, Part.strict, Numbered.part, Numbered.part]
  cases hsoft : rule.rule.strength.isSoft with
  | true => rw [if_pos rfl, Numbered.fragment_strict_of_soft hsoft]
  | false => rw [if_neg Bool.false_ne_true, Numbered.fragment_strict_of_hard hsoft]

theorem violations_softBlocks (hsoft : options.soft = true) {block : Subto}
    (h : block ∈ softBlocks (t.numberedParts options)) : block.violations ≠ [] := by
  obtain ⟨rule, -, hstrength, hblock⟩ := mem_softBlocks.mp h
  cases hpenalty : rule.rule.strength with
  | hard => simp [hpenalty, Strength.isSoft] at hstrength
  | soft penalty => exact Numbered.violations_ne_nil hsoft hpenalty hblock

theorem filter_softBlocks (hsoft : options.soft = true) {rule : Numbered}
    (hmem : rule ∈ t.numbered) : (rule.fragment options).subtos.filter
        (fun block => block.name ≠ "oc1" ∧ block ∉ softBlocks (t.numberedParts options)) =
      (rule.fragment options.strict).subtos := by
  cases hstrength : rule.rule.strength with
  | hard =>
    rw [Numbered.fragment_strict_of_hard (by rw [hstrength]; rfl)]
    refine List.filter_eq_self.mpr fun block hblock => decide_eq_true ⟨?_, fun h => ?_⟩
    · exact Numbered.name_ne_of_mem_subtos hblock
    · exact violations_softBlocks hsoft h
        ((Numbered.charges_of_hard options hstrength).rows block hblock)
  | soft penalty =>
    have hstrict : rule.rule.strength.isSoft = true := by rw [hstrength]; rfl
    rw [Numbered.fragment_strict_of_soft hstrict]
    refine List.filter_eq_nil_iff.mpr fun block hblock h => (of_decide_eq_true h).2 ?_
    exact mem_softBlocks.mpr ⟨rule, hmem, hstrict, hblock⟩

theorem subtos_goal_strict (options : Options) (charges : List Linear) :
    Program.subtos (goal options.strict charges) = [] :=
  subtos_goal_of_no_cutoff (fun h => absurd h Bool.false_ne_true) charges

theorem filter_subtos (hsoft : options.soft = true) :
    (Program.subtos (t.program options)).filter
        (fun block => block.name ≠ "oc1" ∧ block ∉ softBlocks (t.numberedParts options)) =
      Program.subtos (t.program options.strict) := by
  have hframe : (Program.subtos (Frame.statements t options)).filter
      (fun block => block.name ≠ "oc1" ∧ block ∉ softBlocks (t.numberedParts options)) =
        Program.subtos (Frame.statements t options) := by
    refine List.filter_eq_self.mpr fun block hblock => decide_eq_true ?_
    obtain ⟨hname, hviolations⟩ := Frame.plain_of_mem_subtos hblock
    exact ⟨hname, fun h => violations_softBlocks hsoft h hviolations⟩
  have hgoal : (Program.subtos (goal options (t.charges options))).filter
      (fun block => block.name ≠ "oc1" ∧ block ∉ softBlocks (t.numberedParts options)) = [] :=
    List.filter_eq_nil_iff.mpr fun block hblock h =>
      (of_decide_eq_true h).1 (name_of_mem_cutoff hblock)
  rw [t.subtos_program, t.subtos_program, List.filter_append, List.filter_append, hframe, hgoal,
    List.filter_flatMap, Frame.subtos_strict, subtos_goal_strict]
  refine congrArg (Program.subtos (Frame.statements t options) ++ · ++ []) ?_
  exact List.flatMap_congr fun rule hmem => filter_softBlocks hsoft hmem

/-- Without soft rules a formulated tournament is left with its frame and its hard rules as they
were, and with no violation. -/
theorem leftStrict {program : Program} (hsoft : options.soft = true)
    (h : t.formulate options = .ok program) :
    ∃ strict, t.formulate options.strict = .ok strict ∧ t.LeftStrict options program strict := by
  obtain ⟨rfl, hcheck⟩ := of_formulate h
  have hcheck' : ∀ rule ∈ t.numbered, rule.check options.strict = .ok () := fun rule hmem =>
    Numbered.check_strict (hcheck rule hmem)
  obtain ⟨counters, hcounters, hparts⟩ := parts_eq_ok hcheck
  obtain ⟨counters', hcounters', hparts'⟩ := parts_eq_ok hcheck'
  rw [numberedParts_strict] at hparts'
  have hprogram := t.assemble_numberedParts options.strict
  rw [numberedParts_strict] at hprogram
  refine ⟨_, formulate_eq_ok hcheck', ⟨_, counters, counters', hparts, hparts', fun kind => ?_,
    (t.assemble_numberedParts options).symm, hprogram.symm, (filter_subtos hsoft).symm⟩, ?_, ?_, ?_⟩
  · rw [hcounters.numbers, hcounters'.numbers]
  · rw [t.varDecls_program, List.forall_mem_append]
    refine ⟨fun decl => Frame.isViolation_strict, fun decl hdecl => ?_⟩
    obtain ⟨rule, -, hdecl⟩ := List.mem_flatMap.mp hdecl
    cases hstrength : rule.rule.strength with
    | hard =>
      rw [Numbered.varDecls_of_hard hstrength] at hdecl
      exact nomatch hdecl
    | soft penalty =>
      rw [Numbered.fragment_strict_of_soft (by rw [hstrength]; rfl)] at hdecl
      exact nomatch hdecl
  · rw [t.subtos_program, subtos_goal_strict, List.append_nil, List.forall_mem_append]
    refine ⟨fun block hblock => (Frame.plain_of_mem_subtos hblock).2, fun block hblock => ?_⟩
    obtain ⟨rule, -, hblock⟩ := List.mem_flatMap.mp hblock
    cases hstrength : rule.rule.strength with
    | hard => exact (Numbered.charges_of_hard _ hstrength).rows block hblock
    | soft penalty =>
      rw [Numbered.fragment_strict_of_soft (by rw [hstrength]; rfl)] at hblock
      exact nomatch hblock
  · rw [t.objectives_program]
    intro goal hgoal
    unfold RoundRobin.goal at hgoal
    split at hgoal
    · obtain rfl := List.mem_singleton.mp hgoal
      exact List.forall_mem_singleton.mpr rfl
    · exact nomatch hgoal

end Tournament

/-- A game that must take place in one of the slots and is to take place in the first. -/
def eitherSlotTournament : Tournament where
  name := none
  teams := [0, 1]
  slots := [0, 1]
  phased := false
  rules := [⟨.soft 3, .ga1 ⟨1, 1, [0], [⟨0, 1, Int.zero_ne_one⟩]⟩⟩,
    ⟨.hard, .ga1 ⟨1, 1, [0, 1], [⟨0, 1, Int.zero_ne_one⟩]⟩⟩]

/-- The rows of the hard rule keep the names that they have behind those of the soft rule, and what
the soft rule adds is left out with its row and its charge. -/
theorem leftStrict_eitherSlot :
    let program := eitherSlotTournament.program {}
    let soft : Subto := ⟨"ga1_1", [], [⟨.sumOver (.over ["s"] (.ids [0]))
      (.plus [playedIn (.int 0) (.int 1) "s"]), .le, .plus [.const 1, .var "ga1_viol" [1]]⟩]⟩
    let lower : Subto := ⟨"ga1_4", [], [⟨.sumOver (.over ["s"] (.ids [0, 1]))
      (.plus [playedIn (.int 0) (.int 1) "s"]), .ge, .const 1⟩]⟩
    ∃ strict, eitherSlotTournament.formulate (Options.strict {}) = .ok strict ∧
      eitherSlotTournament.LeftStrict {} program strict ∧
      program.subtos.map (·.name) = ["c1", "c2", "c3", "ga1_1", "ga1_2", "ga1_3", "ga1_4"] ∧
      strict.subtos.map (·.name) = ["c1", "c2", "c3", "ga1_3", "ga1_4"] ∧
      soft ∈ program.subtos ∧ soft ∉ strict.subtos ∧
      lower ∈ program.subtos ∧ lower ∈ strict.subtos ∧
      program.objectives.flatMap (·.terms) = [.weighted (.var "ga1_viol" [1]) 3] ∧
      strict.objectives.flatMap (·.terms) = [] := by
  intro program soft lower
  have hprogram : eitherSlotTournament.formulate {} = .ok program := rfl
  obtain ⟨strict, hstrict, hleft⟩ := Tournament.leftStrict rfl hprogram
  obtain rfl : eitherSlotTournament.program (Options.strict {}) = strict := Except.ok.inj hstrict
  exact ⟨_, hstrict, hleft, rfl, rfl, by decide +kernel, by decide +kernel, by decide +kernel,
    by decide +kernel, rfl, rfl⟩

end RoundRobin
