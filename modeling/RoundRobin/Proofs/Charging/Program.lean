import RoundRobin.Proofs.Charging.Rules
import RoundRobin.Proofs.Meaning.Soft

/-! The charges of a whole program. The objective lists what the rules charge, in order, and each
violation that a row gives way by is charged by one term of it. -/

namespace RoundRobin

open Zimpl

/-- A block of a frame neither gives way nor has the name of the cutoff. -/
theorem Frame.plain_of_mem_subtos {t : Tournament} {options : Options} {block : Subto}
    (h : block ∈ Program.subtos (Frame.statements t options)) :
    block.name ≠ "oc1" ∧ block.violations = [] := by
  have hnames : Apart "oc1" "cos" := by decide
  have hcounters : ∀ name ∈ ["bh", "ba", "hg"], isViolation name = false := by decide
  simp only [List.forall_mem_cons] at hcounters
  rcases Frame.mem_subtos.mp h with h | h | h
  · simp only [Frame.gameBlocks, List.mem_append, or_assoc] at h
    rcases h with h | h | h | h | h
    · have hblocks : ∀ block ∈ Program.subtos (Frame.schedule options),
          block.name ≠ "oc1" ∧ block.violations = [] := by
        show ∀ block ∈ [_, _, _], _
        simp [Subto.violations, Row.violations]
      exact hblocks block h
    · unfold Frame.fixedCount at h
      split at h
      · obtain rfl := List.mem_singleton.mp h
        exact ⟨by decide, rfl⟩
      · cases h
    · obtain ⟨⟨name, size⟩, hfamily, h⟩ := Frame.mem_subtos_oddFamilies.mp h
      obtain rfl := List.mem_singleton.mp h
      refine ⟨?_, rfl⟩
      show name ≠ "oc1"
      unfold Frame.oddFamilies at hfamily
      split at hfamily
      · cases hfamily
      · obtain ⟨rfl, rfl⟩ := Prod.mk.inj (List.mem_singleton.mp hfamily)
        decide
      · obtain ⟨_, -, heq⟩ := List.mem_map.mp hfamily
        obtain ⟨rfl, -⟩ := Prod.mk.inj heq
        exact hnames.ne_append.symm
    · unfold Frame.halves at h
      split at h
      · obtain rfl := List.mem_singleton.mp h
        exact ⟨by simp, rfl⟩
      · cases h
    · unfold Frame.mirror at h
      split at h
      · obtain rfl := List.mem_singleton.mp h
        exact ⟨by decide, rfl⟩
      · cases h
  · unfold Frame.breakCount at h
    dsimp only at h
    split at h
    · obtain rfl := List.mem_singleton.mp h
      exact ⟨by decide, by simp [Subto.violations, Row.violations, hcounters]⟩
    · cases h
  · unfold Frame.homeGames at h
    dsimp only at h
    split at h
    · obtain rfl := List.mem_singleton.mp h
      exact ⟨by decide, by simp [Subto.violations, Row.violations, hcounters]⟩
    · cases h

namespace Numbered

variable {t : Tournament} {options : Options} {rule : Numbered}

theorem charges_of_hard (options : Options) (h : rule.rule.strength = .hard) :
    (rule.fragment options).ChargesNothing := by
  have hskip : rule.isSkipped options = false := by rw [isSkipped, Rule.isSkipped, h]; rfl
  have hfair := fair_fragment hskip
  rwa [h] at hfair

theorem charges_of_soft {penalty : Nat} (hsoft : options.soft = true)
    (h : rule.rule.strength = .soft penalty) :
    (rule.fragment options).ChargesOnce penalty (rule.charged options) := by
  have hskip : rule.isSkipped options = false := by simp [isSkipped, Rule.isSkipped, hsoft]
  have hfair := fair_fragment hskip
  rwa [h] at hfair

/-- A rule refers to a violation by a name of its kind: to its place in an array that the rules of
its kind share, or to a violation of its own. -/
theorem mem_charged {reference : Reference} (h : reference ∈ rule.charged options) :
    (∃ rest, reference.1 = rule.rule.kind.stem ++ rest) ∧
      if rule.rule.kind ∈ [Kind.ca1, .ca2, .ga1] then reference.2 = [.int rule.softPlace]
      else reference.1 = rule.violationName := by
  have hown : ∃ rest, rule.violationName = rule.rule.kind.stem ++ rest :=
    ⟨_, rule.violationName_eq⟩
  unfold charged at h
  cases hdemand : rule.rule.demand with
  | ca1 cap | ca2 cap =>
    rw [hdemand] at h
    obtain rfl := List.mem_singleton.mp h
    rw [Rule.kind, hdemand]
    exact ⟨⟨"_viol", rfl⟩, rfl⟩
  | ga1 bound =>
    rw [hdemand] at h
    rw [Rule.kind, hdemand]
    rcases List.mem_cons.mp h with rfl | h
    · exact ⟨⟨"_viol", rfl⟩, rfl⟩
    · split at h
      · obtain rfl := List.mem_singleton.mp h
        exact ⟨⟨"_min_viol", rfl⟩, rfl⟩
      · cases h
  | ca3 cap | ca4 cap | se1 separation | fa2 balance =>
    rw [hdemand] at h
    obtain rfl := List.mem_singleton.mp h
    refine ⟨hown, ?_⟩
    rw [if_neg (by simp [Rule.kind, hdemand, Demand.kind])]
  | br1 breaks | br2 breaks =>
    rw [hdemand] at h
    dsimp only at h
    split at h
    · cases h
    · obtain rfl := List.mem_singleton.mp h
      refine ⟨hown, ?_⟩
      rw [if_neg (by simp [Rule.kind, hdemand, Demand.kind])]

/-- Two rules give way apart from each other. -/
theorem apart_of_mem_charged {a b : Numbered}
    (hdistinct : a.rule.kind = b.rule.kind → a.number ≠ b.number ∧ a.softPlace ≠ b.softPlace)
    {reference other : Reference} (ha : reference ∈ a.charged options)
    (hb : other ∈ b.charged options) : reference.Apart other := by
  obtain ⟨⟨rest, hname⟩, hplace⟩ := mem_charged ha
  obtain ⟨⟨rest', hname'⟩, hplace'⟩ := mem_charged hb
  by_cases hkind : a.rule.kind = b.rule.kind
  · obtain ⟨hnumber, hsoft⟩ := hdistinct hkind
    rw [← hkind] at hplace'
    split at hplace
    · rename_i hshared
      rw [if_pos hshared] at hplace'
      exact .inr ⟨_, _, fun h => hsoft (Int.ofNat_inj.mp h), hplace, hplace'⟩
    · rename_i hown
      rw [if_neg hown] at hplace'
      refine .inl fun h => hnumber (violationName_injective ?_).2
      rw [← hplace, ← hplace', h]
  · refine .inl ?_
    rw [hname, hname']
    exact (Kind.apart_stem hkind).append_ne

theorem nodup_charged (options : Options) (rule : Numbered) : (rule.charged options).Nodup := by
  unfold charged
  cases rule.rule.demand with
  | ga1 bound =>
    dsimp only [MeetingBound.charged]
    split <;> simp
  | br1 breaks | br2 breaks =>
    dsimp only
    split <;> simp
  | _ => exact List.nodup_singleton _

/-- How many violations the rows of a soft rule give way by: two if the two bounds of a rule on
meetings give way apart. -/
def chargeCount (options : Options) (rule : Numbered) : Nat :=
  match rule.rule.demand with
  | .ga1 bound => if bound.min ≠ 0 ∧ options.minPenalty = .separate then 2 else 1
  | _ => 1

/-- A soft rule with rows gives way. -/
theorem length_charged (hsoft : options.soft = true) (hrows : (rule.fragment options).subtos ≠ []) :
    (rule.charged options).length = rule.chargeCount options := by
  have hskip : rule.isSkipped options = false := by simp [isSkipped, Rule.isSkipped, hsoft]
  have hvoid : rule.isVoid = false := by
    by_contra hvoid
    rw [fragment_of_isVoid hskip (by simpa using hvoid)] at hrows
    exact hrows rfl
  unfold charged chargeCount
  cases rule.rule.demand with
  | ga1 bound =>
    dsimp only [MeetingBound.charged]
    split <;> rfl
  | br1 breaks | br2 breaks =>
    dsimp only
    rw [hvoid]
    rfl
  | _ => rfl

/-- The charges of a rule refer to the violations that its rows give way by. -/
theorem references_charges (hsoft : options.soft = true) (rule : Numbered) :
    (rule.fragment options).charges.flatMap Linear.references =
      if rule.rule.strength.isSoft then rule.charged options else [] := by
  cases hstrength : rule.rule.strength with
  | hard => rw [(charges_of_hard options hstrength).charges]; rfl
  | soft penalty =>
    rw [List.flatMap, (charges_of_soft hsoft hstrength).map_references]
    exact List.flatMap_singleton' _

/-- Each row of a soft rule gives way, and no row of a hard one. -/
theorem mem_charged_of_mem_violations (hsoft : options.soft = true) {block : Subto}
    (hblock : block ∈ (rule.fragment options).subtos) {reference : Reference}
    (h : reference ∈ block.violations) :
    rule.rule.strength.isSoft = true ∧ reference ∈ rule.charged options := by
  cases hstrength : rule.rule.strength with
  | hard =>
    rw [(charges_of_hard options hstrength).rows block hblock] at h
    exact nomatch h
  | soft penalty =>
    exact ⟨rfl, (charges_of_soft hsoft hstrength).mem_of_mem_violations hblock h⟩

end Numbered

section Once

variable {t : Tournament} {options : Options}

/-- Two soft rules of a tournament differ in number and place if they are of one kind. -/
theorem Tournament.number_ne {a b : Numbered} (ha : a ∈ t.numbered) (hb : b ∈ t.numbered)
    (hab : a ≠ b) (hsoft : a.rule.strength.isSoft = true) (hsoft' : b.rule.strength.isSoft = true)
    (hkind : a.rule.kind = b.rule.kind) : a.number ≠ b.number ∧ a.softPlace ≠ b.softPlace := by
  have hgrow := Numbered.pairwise_allBehind [] t.rules
  obtain ⟨i, hi, rfl⟩ := List.getElem_of_mem ha
  obtain ⟨j, hj, rfl⟩ := List.getElem_of_mem hb
  rcases lt_trichotomy i j with hij | rfl | hji
  · obtain ⟨hnumber, hplace⟩ := List.pairwise_iff_getElem.mp hgrow i j hi hj hij hkind
    exact ⟨hnumber.ne, (hplace hsoft).ne⟩
  · exact absurd rfl hab
  · obtain ⟨hnumber, hplace⟩ := List.pairwise_iff_getElem.mp hgrow j i hj hi hji hkind.symm
    exact ⟨hnumber.ne', (hplace hsoft').ne'⟩

/-- Two soft rules of a tournament give way apart from each other. -/
theorem Tournament.apart_charged {a b : Numbered} (ha : a ∈ t.numbered) (hb : b ∈ t.numbered)
    (hab : a ≠ b) (hsoft : a.rule.strength.isSoft = true) (hsoft' : b.rule.strength.isSoft = true)
    {reference other : Reference} (hreference : reference ∈ a.charged options)
    (hother : other ∈ b.charged options) : reference.Apart other :=
  Numbered.apart_of_mem_charged (Tournament.number_ne ha hb hab hsoft hsoft') hreference hother

/-- No violation is charged twice. -/
theorem Tournament.nodup_references_charges (t : Tournament) (hsoft : options.soft = true) :
    ((t.charges options).flatMap Linear.references).Nodup := by
  rw [Tournament.charges, List.flatMap_assoc]
  simp only [Numbered.references_charges hsoft]
  refine List.nodup_flatMap.mpr ⟨fun rule _ => ?_,
    (Numbered.nodup_numbered t).pairwise_of_forall_ne ?_⟩
  · split
    · exact rule.nodup_charged options
    · exact List.nodup_nil
  · intro a ha b hb hab reference href href'
    rw [List.mem_ite_nil_right] at href href'
    exact (Tournament.apart_charged ha hb hab href.1 href'.1 href.2 href'.2).ne rfl

/-- Each charge refers to one violation. -/
theorem Tournament.exists_references_eq (hsoft : options.soft = true) {term : Linear}
    (h : term ∈ t.charges options) : ∃ found, term.references = [found] := by
  obtain ⟨rule, -, hterm⟩ := List.mem_flatMap.mp h
  cases hstrength : rule.rule.strength with
  | hard =>
    rw [(Numbered.charges_of_hard options hstrength).charges] at hterm
    exact nomatch hterm
  | soft penalty =>
    have hmap := (Numbered.charges_of_soft hsoft hstrength).map_references
    have href : term.references ∈ (rule.charged options).map fun reference => [reference] :=
      hmap ▸ List.mem_map_of_mem hterm
    obtain ⟨found, -, hfound⟩ := List.mem_map.mp href
    exact ⟨found, hfound.symm⟩

/-- Where each term refers to one variable, as many terms refer to it as there are references. -/
theorem countP_references {terms : List Linear} {reference : Reference}
    (h : ∀ term ∈ terms, ∃ found, term.references = [found]) :
    terms.countP (fun term => reference ∈ term.references) =
      (terms.flatMap Linear.references).count reference := by
  induction terms with
  | nil => rfl
  | cons term terms ih =>
    obtain ⟨⟨found, hfound⟩, hrest⟩ := List.forall_mem_cons.mp h
    rw [List.countP_cons, ih hrest, List.flatMap_cons, List.count_append, hfound, add_comm]
    congr 1
    by_cases heq : reference = found
    · simp [heq]
    · simp [heq, Ne.symm heq]

/-- The violations of a program whose soft rules are all charged. -/
structure Tournament.ChargedOnce (t : Tournament) (options : Options)
    (program : Program) : Prop where
  /-- The rows are those of the frame and of the rules, in order, and the cutoff. -/
  blocks : ∃ cutoff, program.subtos = Program.subtos (Frame.statements t options)
    ++ t.numbered.flatMap (fun rule => (rule.fragment options).subtos) ++ cutoff ∧
    ∀ block ∈ cutoff, block.name = "oc1"
  /-- The objective lists what the rules charge, in order. -/
  terms : program.objectives.length ≤ 1 ∧ program.objectives.flatMap (·.terms) =
    t.numbered.flatMap fun rule => (rule.fragment options).charges
  /-- A hard rule charges nothing, and neither does a rule without rows. -/
  free : ∀ rule ∈ t.numbered, rule.rule.strength = .hard ∨ (rule.fragment options).subtos = [] →
    (rule.fragment options).charges = []
  /-- A soft rule with rows has one charge for each violation that its rows give way by. -/
  charged : ∀ rule ∈ t.numbered, ∀ penalty, rule.rule.strength = .soft penalty →
    (rule.fragment options).subtos ≠ [] → ∃ references : List Reference,
      references.length = rule.chargeCount options ∧ references.Nodup ∧
      (rule.fragment options).ChargesOnce penalty references
  /-- No row of the frame gives way. -/
  frame : ∀ block ∈ Program.subtos (Frame.statements t options), block.violations = []
  /-- No two rules give way by the same violation. -/
  apart : ∀ a ∈ t.numbered, ∀ b ∈ t.numbered, a ≠ b →
    ∀ block ∈ (a.fragment options).subtos, ∀ reference ∈ block.violations,
    ∀ other ∈ (b.fragment options).subtos, ∀ reference' ∈ other.violations,
      reference.Apart reference'
  /-- One term charges each violation that a row gives way by. -/
  once : ∀ block ∈ program.subtos, block.name ≠ "oc1" → ∀ reference ∈ block.violations,
    (program.objectives.flatMap (·.terms)).countP (fun term => reference ∈ term.references) = 1

theorem name_of_mem_cutoff {options : Options} {charges : List Linear} {block : Subto}
    (h : block ∈ Program.subtos (goal options charges)) : block.name = "oc1" := by
  obtain ⟨-, cutoff, -, rfl⟩ := exists_cutoff_of_mem_subtos h
  rfl

/-- The objective of a program with soft rules is to have as little violation as possible, if there
can be any. -/
theorem objectives_goal {options : Options} (hsoft : options.soft = true)
    (hfull : options.feasibility = false) (charges : List Linear) :
    Program.objectives (goal options charges) =
      if charges.isEmpty then [] else [leastViolation charges] := by
  have hgoal : Program.objectives (if charges.isEmpty then []
      else [.blank, .objective (leastViolation charges)]) =
        if charges.isEmpty then [] else [leastViolation charges] := by
    split <;> rfl
  rw [goal, hfull, if_neg (by decide), hsoft, if_neg (by decide), Program.objectives_append, hgoal]
  cases options.cutoff with
  | none => rfl
  | some cutoff =>
    dsimp only [Cutoff.statements]
    split <;> rfl

/-- Each violation of a formulated tournament is charged exactly once, in the order of its rules. -/
theorem Tournament.chargedOnce {program : Program} (h : t.formulate options = .ok program)
    (hsoft : options.soft = true) (hfull : options.feasibility = false) :
    t.ChargedOnce options program := by
  obtain ⟨rfl, -⟩ := Tournament.of_formulate h
  have hobjectives : Program.objectives (t.program options) = _ :=
    (t.objectives_program options).trans (objectives_goal hsoft hfull (t.charges options))
  have hterms : (Program.objectives (t.program options)).flatMap (·.terms) = t.charges options := by
    rw [hobjectives]
    split
    · rename_i hnone
      rw [List.isEmpty_iff.mp hnone]
      rfl
    · exact List.append_nil _
  refine ⟨⟨_, t.subtos_program options, fun _ => name_of_mem_cutoff⟩, ⟨?_, hterms⟩, ?_, ?_,
    fun block hblock => (Frame.plain_of_mem_subtos hblock).2, ?_, ?_⟩
  · rw [hobjectives]
    split
    · exact Nat.zero_le 1
    · exact le_refl 1
  · rintro rule - (hhard | hnone)
    · exact (Numbered.charges_of_hard options hhard).charges
    · cases hstrength : rule.rule.strength with
      | hard => exact (Numbered.charges_of_hard options hstrength).charges
      | soft penalty => exact (Numbered.charges_of_soft hsoft hstrength).charges_eq_nil hnone
  · intro rule hmem penalty hstrength hrows
    exact ⟨rule.charged options, Numbered.length_charged hsoft hrows, rule.nodup_charged options,
      Numbered.charges_of_soft hsoft hstrength⟩
  · intro a ha b hb hab block hblock reference href other hother reference' href'
    have hfirst := Numbered.mem_charged_of_mem_violations hsoft hblock href
    have hsecond := Numbered.mem_charged_of_mem_violations hsoft hother href'
    exact Tournament.apart_charged ha hb hab hfirst.1 hsecond.1 hfirst.2 hsecond.2
  · intro block hblock hname reference href
    rw [t.subtos_program, List.mem_append, List.mem_append] at hblock
    rw [hterms, countP_references fun term => Tournament.exists_references_eq hsoft]
    rcases hblock with (hframe | hrule) | hgoal
    · rw [(Frame.plain_of_mem_subtos hframe).2] at href
      exact nomatch href
    · obtain ⟨rule, hmem, hblock⟩ := List.mem_flatMap.mp hrule
      refine List.count_eq_one_of_mem (t.nodup_references_charges hsoft) ?_
      rw [Tournament.charges, List.flatMap_assoc]
      refine List.mem_flatMap.mpr ⟨rule, hmem, ?_⟩
      rw [rule.references_charges hsoft, List.mem_ite_nil_right]
      exact Numbered.mem_charged_of_mem_violations hsoft hblock href
    · exact absurd (name_of_mem_cutoff hgoal) hname

end Once

/-- A game that is to take place in the first slot, where it is not to take place as well. -/
def contraryTournament : Tournament where
  name := none
  teams := [0, 1]
  slots := [0, 1]
  phased := false
  rules := [⟨.soft 3, .ga1 ⟨1, 1, [0], [⟨0, 1, Int.zero_ne_one⟩]⟩⟩,
    ⟨.soft 2, .ca1 ⟨0, 0, .home, [0], [0]⟩⟩,
    ⟨.soft 1, .br1 ⟨0, .both, [0, 1], [0]⟩⟩]

/-- The lower bound has a row that gives way by a violation of its own, which one of the three terms
charges. The rule on the first slot adds nothing. -/
theorem chargedOnce_contrary :
    let options : Options := { minPenalty := .separate }
    let program := contraryTournament.program options
    let lower : Subto := ⟨"ga1_2", [], [⟨.sumOver (.over ["s"] (.ids [0]))
      (.plus [playedIn (.int 0) (.int 1) "s"]), .ge,
      .diff (.const 1) (.var "ga1_min_viol" [1])⟩]⟩
    contraryTournament.ChargedOnce options program ∧
      program.subtos.map (·.name) = ["c1", "c2", "c3", "br_count", "ga1_1", "ga1_2", "ca1_1"] ∧
      lower ∈ program.subtos ∧ ("ga1_min_viol", [1]) ∈ lower.violations ∧
      program.objectives.flatMap (·.terms) = [.weighted (.var "ga1_viol" [1]) 3,
        .weighted (.var "ga1_min_viol" [1]) 3, .weighted (.var "ca1_viol" [1]) 2] ∧
      (program.objectives.flatMap (·.terms)).countP
        (fun term => ("ga1_min_viol", [1]) ∈ term.references) = 1 := by
  intro options program lower
  have hprogram : contraryTournament.formulate options = .ok program := rfl
  have hcharged := Tournament.chargedOnce hprogram rfl rfl
  have hlower : lower ∈ program.subtos := by
    rw [contraryTournament.subtos_program]
    refine List.mem_append_left _ (List.mem_append_right _ (List.mem_flatMap.mpr ?_))
    exact ⟨_, .head _, .tail _ (.head _)⟩
  have hviolation : ("ga1_min_viol", [1]) ∈ lower.violations := .head _
  exact ⟨hcharged, by decide +kernel, hlower, hviolation, by decide +kernel,
    hcharged.once lower hlower (by decide) _ hviolation⟩

end RoundRobin
