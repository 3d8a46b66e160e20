import RoundRobin.Proofs.Meaning.Stage
import RoundRobin.Proofs.Numbering.Names

/-! What a rule adds to a program. It depends on the rules of its kind that come before it, which
number it, and on no other rule, so rules of other kinds can be deleted. -/

namespace RoundRobin

open Zimpl

/-- What is kept of some rules when none of a kind is deleted. -/
structure Kind.Keeps (kind : Kind) (kept rules : List Rule) : Prop where
  sublist : kept.Sublist rules
  same : kept.filter (fun rule => rule.kind = kind) = rules.filter fun rule => rule.kind = kind

namespace Kind.Keeps

variable {kind : Kind} {kept rules kept' rules' : List Rule} {rule : Rule}

theorem unitsOf_eq (h : kind.Keeps kept rules) : unitsOf kind kept = unitsOf kind rules := by
  rw [← unitsOf_filter, h.same, unitsOf_filter]

theorem softOf_eq (h : kind.Keeps kept rules) : softOf kind kept = softOf kind rules := by
  rw [← softOf_filter, h.same, softOf_filter]

/-- A rule is numbered by those of its kind alone. -/
theorem behind_eq (h : rule.kind.Keeps kept rules) :
    Numbered.behind kept rule = Numbered.behind rules rule := by
  rw [Numbered.behind, Numbered.behind, h.unitsOf_eq, h.softOf_eq]

theorem append_cons (h : kind.Keeps kept rules) (h' : kind.Keeps kept' rules') :
    kind.Keeps (kept ++ rule :: kept') (rules ++ rule :: rules') where
  sublist := h.sublist.append (h'.sublist.cons_cons rule)
  same := by
    rw [List.filter_append, List.filter_append, List.filter_cons, List.filter_cons, h.same, h'.same]

end Kind.Keeps

theorem Numbered.allBehind_append (earlier before after : List Rule) :
    allBehind earlier (before ++ after) =
    allBehind earlier before ++ allBehind (earlier ++ before) after := by
  induction before generalizing earlier with
  | nil => rw [List.append_nil]; rfl
  | cons rule before ih =>
    rw [List.cons_append, allBehind, allBehind, ih, List.append_assoc]
    rfl

namespace Tournament

variable {t : Tournament} {options : Options} {before after : List Rule} {rule : Rule}

/-- The same tournament with other rules. -/
def withRules (t : Tournament) (rules : List Rule) : Tournament := { t with rules := rules }

/-- What a rule adds to a program, behind the rules before it and before those behind it. The
counters go from each rule to the next. -/
structure Adds (t : Tournament) (options : Options) (program : Program) (before : List Rule)
    (rule : Rule) (after : List Rule) (fragment : Fragment) : Prop where
  rules : t.rules = before ++ rule :: after
  formulated : ∃ earlier counters counters' later final,
    (before.mapM (Rule.part options)).run {} = .ok (earlier, counters) ∧
    (rule.formulate options).run counters = .ok (fragment, counters') ∧
    (after.mapM (Rule.part options)).run counters' = .ok (later, final) ∧
    program = Frame.statements t options
      ++ earlier.flatMap Part.statements
      ++ titled rule.text fragment.statements
      ++ later.flatMap Part.statements
      ++ goal options (earlier.flatMap (·.fragment.charges) ++ fragment.charges
        ++ later.flatMap (·.fragment.charges))

/-- Each rule of a program adds the fragment of its numbers in closed form. -/
theorem adds_behind (h : t.rules = before ++ rule :: after)
    (hcheck : ∀ rule ∈ t.numbered, rule.check options = .ok ()) :
    t.Adds options (t.program options) before rule after
      ((Numbered.behind before rule).fragment options) := by
  have hnumbered : t.numbered = Numbered.allBehind [] before
      ++ Numbered.behind before rule :: Numbered.allBehind (before ++ [rule]) after := by
    rw [numbered, h, Numbered.allBehind_append]
    rfl
  rw [hnumbered, List.forall_mem_append, List.forall_mem_cons] at hcheck
  obtain ⟨hbefore, hrule, hafter⟩ := hcheck
  obtain ⟨counters, hcounters, hearlier⟩ := run_parts_ok (Counters.behind_nil options) hbefore
  obtain ⟨final, -, hlater⟩ := run_parts_ok (hcounters.after rule) hafter
  refine ⟨h, _, counters, _, _, final, hearlier, Rule.run_formulate_ok hcounters hrule, hlater, ?_⟩
  rw [← t.assemble_numberedParts, assemble, numberedParts, hnumbered, List.map_append,
    List.map_cons]
  simp only [List.flatMap_append, List.flatMap_cons, List.append_assoc]
  rfl

/-- A program can be formulated with some of its rules left out. -/
theorem formulate_sublist {program : Program} (h : t.formulate options = .ok program)
    {kept : List Rule} (hkept : kept.Sublist t.rules) :
    (t.withRules kept).formulate options = .ok ((t.withRules kept).program options) := by
  obtain ⟨-, hcheck⟩ := of_formulate h
  refine formulate_eq_ok fun rule hrule => ?_
  have hmem : rule.rule ∈ t.numbered.map (·.rule) := by
    rw [t.map_rule_numbered]
    exact hkept.subset (rule_mem hrule)
  obtain ⟨found, hfound, heq⟩ := List.mem_map.mp hmem
  refine Numbered.check_of_skipped heq (fun hskip => ?_) (hcheck found hfound)
  rwa [Numbered.isSkipped, ← heq]

end Tournament

/-- The first number of a rule behind others: one more than there are rules of its kind, and for a
rule on meetings also than there are least numbers of meetings asked for. -/
def numberBehind (before : List Rule) (rule : Rule) : Nat :=
  1 + before.countP (fun earlier => earlier.kind = rule.kind)
    + if rule.kind = .ga1 then before.countP (·.hasMinimum) else 0

/-- The constraints that a rule adds: their names, and for a rule on meetings which of them bounds
the meetings from below. -/
structure Fragment.NamedFor (fragment : Fragment) (rule : Rule) (number : Nat) : Prop where
  names : fragment.subtos ≠ [] → fragment.subtos.map (·.name) =
    Numbered.nameWith rule.kind number
      :: if rule.hasMinimum then [Numbered.nameWith rule.kind (number + 1)] else []
  meetings : ∀ bound, rule.demand = .ga1 bound → ∀ block ∈ fragment.subtos, ∃ meetings violation,
    block = ⟨Numbered.nameWith .ga1 number, [], [⟨meetings, .le, atMost bound.max violation⟩]⟩ ∨
    0 < bound.min ∧ block =
      ⟨Numbered.nameWith .ga1 (number + 1), [], [⟨meetings, .ge, atLeast bound.min violation⟩]⟩

namespace Numbered

theorem number_behind (before : List Rule) (rule : Rule) :
    (behind before rule).number = numberBehind before rule := by
  have hnumber : (behind before rule).number = unitsOf rule.kind before + 1 := rfl
  rw [hnumber, unitsOf_eq, numberBehind]
  omega

theorem namedFor_fragment (options : Options) (rule : Numbered) :
    (rule.fragment options).NamedFor rule.rule rule.number := by
  refine ⟨fun h => ?_, fun bound hdemand block hblock => ?_⟩
  · rw [names_subtos h, numbers, Rule.units_eq]
    split <;> rfl
  · cases hskip : rule.isSkipped options with
    | true =>
      rw [fragment_eq_empty (.inl hskip)] at hblock
      cases hblock
    | false =>
      have hkind : rule.rule.kind = .ga1 := congrArg Demand.kind hdemand
      rw [fragment_of_not_skipped hskip, hdemand] at hblock
      dsimp only at hblock
      rw [subtos_meetingBound, name, hkind] at hblock
      rcases List.mem_cons.mp hblock with rfl | hblock
      · exact ⟨_, _, .inl rfl⟩
      · split at hblock
        · cases hblock
        · rename_i hmin
          obtain rfl := List.mem_singleton.mp hblock
          exact ⟨_, _, .inr ⟨Nat.pos_of_ne_zero hmin, rfl⟩⟩

end Numbered

/-- What a rule adds is named by a number that counts the rules of its kind before it, and it adds
the same where rules of other kinds are deleted. -/
theorem Tournament.adds_locally {t : Tournament} {options : Options} {program : Program}
    {before after : List Rule} {rule : Rule} (h : t.formulate options = .ok program)
    (hrules : t.rules = before ++ rule :: after) :
    ∃ fragment, t.Adds options program before rule after fragment ∧
      fragment.NamedFor rule (numberBehind before rule) ∧
      ∀ before' after', rule.kind.Keeps before' before → rule.kind.Keeps after' after →
        ∃ program', (t.withRules (before' ++ rule :: after')).formulate options = .ok program' ∧
          (t.withRules (before' ++ rule :: after')).Adds options program' before' rule after'
            fragment := by
  obtain ⟨rfl, hcheck⟩ := Tournament.of_formulate h
  refine ⟨_, adds_behind hrules hcheck, ?_, fun before' after' hbefore hafter => ?_⟩
  · rw [← Numbered.number_behind]
    exact Numbered.namedFor_fragment options _
  · have hkept : rule.kind.Keeps (before' ++ rule :: after') t.rules :=
      hrules ▸ hbefore.append_cons hafter
    have hformulate := formulate_sublist h hkept.sublist
    refine ⟨_, hformulate, ?_⟩
    rw [← hbefore.behind_eq]
    exact adds_behind rfl (of_formulate hformulate).2

/-- A soft and a hard rule on meetings, each with a least number of them, around a capacity rule. -/
def interleavedTournament : Tournament where
  name := none
  teams := [0, 1]
  slots := [0, 1]
  phased := false
  rules := [⟨.soft 3, .ga1 ⟨1, 1, [0], [⟨0, 1, Int.zero_ne_one⟩]⟩⟩,
    ⟨.hard, .ca1 ⟨0, 1, .home, [0], [0]⟩⟩,
    ⟨.hard, .ga1 ⟨1, 1, [0, 1], [⟨1, 0, Int.one_ne_zero⟩]⟩⟩]

/-- The two numbers of the soft rule stay taken where it is passed over, and no number of the other
kind counts. -/
theorem adds_locally_interleaved :
    let first : Rule := ⟨.soft 3, .ga1 ⟨1, 1, [0], [⟨0, 1, by decide⟩]⟩⟩
    let last : Rule := ⟨.hard, .ga1 ⟨1, 1, [0, 1], [⟨1, 0, by decide⟩]⟩⟩
    ∃ (fragment : Fragment) (program' : Program),
      fragment.subtos.map (·.name) = ["ga1_3", "ga1_4"] ∧
      (interleavedTournament.withRules [first, last]).formulate { soft := false } = .ok program' ∧
      (interleavedTournament.withRules [first, last]).Adds { soft := false } program' [first]
        last [] fragment := by
  intro first last
  have hprogram : interleavedTournament.formulate { soft := false } =
    .ok (interleavedTournament.program { soft := false }) := rfl
  have hrules : interleavedTournament.rules =
    [first, ⟨.hard, .ca1 ⟨0, 1, .home, [0], [0]⟩⟩] ++ last :: [] := rfl
  obtain ⟨fragment, hadds, hnamed, hkept⟩ := Tournament.adds_locally hprogram hrules
  have hsome : fragment.subtos ≠ [] := by
    obtain ⟨earlier, counters, counters', later, final, hearlier, hrule, -⟩ := hadds.formulated
    obtain ⟨rfl, rfl⟩ := Prod.mk.inj (Except.ok.inj hearlier)
    obtain ⟨rfl, rfl⟩ := Prod.mk.inj (Except.ok.inj hrule)
    decide
  obtain ⟨program', hformulate, hadds'⟩ := hkept [first] []
    ⟨(List.nil_sublist _).cons_cons first, rfl⟩ ⟨.refl [], rfl⟩
  have hnames : _ = ["ga1_3", "ga1_4"] := (hnamed.names hsome).trans (by decide)
  exact ⟨fragment, program', hnames, hformulate, hadds'⟩

end RoundRobin
