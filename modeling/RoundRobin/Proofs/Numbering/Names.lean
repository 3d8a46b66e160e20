import RoundRobin.Proofs.Meaning.Charges

/-! Which numbers rules take. The rules of a kind take consecutive numbers, whether or not they add
anything to the program, and its soft rules take consecutive places. The constraints that a rule
adds are named by its numbers in turn. -/

namespace RoundRobin

open Zimpl

/-- Whether a rule asks for a least number of meetings, which takes a number of its own. -/
def Rule.hasMinimum (rule : Rule) : Bool :=
  match rule.demand with
  | .ga1 bound => 0 < bound.min
  | _ => false

theorem Rule.units_eq (rule : Rule) : rule.demand.units = if rule.hasMinimum then 2 else 1 := by
  unfold Rule.hasMinimum
  cases rule.demand with
  | ga1 bound =>
    by_cases hmin : bound.min = 0
    · simp [Demand.units, hmin]
    · have hpos : 0 < bound.min := by omega
      simp [Demand.units, hmin, hpos]
  | _ => rfl

theorem Rule.kind_of_hasMinimum {rule : Rule} (h : rule.hasMinimum = true) : rule.kind = .ga1 := by
  unfold Rule.hasMinimum at h
  unfold Rule.kind
  cases hdemand : rule.demand with
  | ga1 bound => rfl
  | _ =>
    rw [hdemand] at h
    exact nomatch h

theorem Rule.exists_of_kind_eq_ga1 (rule : Rule) (h : rule.kind = .ga1) :
    ∃ bound, rule.demand = .ga1 bound := by
  unfold Rule.kind at h
  cases hdemand : rule.demand with
  | ga1 bound => exact ⟨bound, rfl⟩
  | _ =>
    rw [hdemand] at h
    exact nomatch h

/-- The rules of a kind take a number each, and those that ask for a least number of meetings
another. -/
theorem unitsOf_eq (kind : Kind) (rules : List Rule) :
    unitsOf kind rules = rules.countP (fun rule => rule.kind = kind)
      + if kind = .ga1 then rules.countP (·.hasMinimum) else 0 := by
  induction rules with
  | nil => simp [unitsOf]
  | cons rule rules ih =>
    rw [unitsOf, ih, rule.units_eq, List.countP_cons, List.countP_cons]
    cases hmin : rule.hasMinimum with
    | true =>
      by_cases hga1 : kind = .ga1
      · subst hga1
        rw [Rule.kind_of_hasMinimum hmin]
        simp only [decide_true, if_true]
        omega
      · have hkind : rule.kind ≠ kind := (Rule.kind_of_hasMinimum hmin).trans_ne (Ne.symm hga1)
        simp [hkind, hga1]
    | false =>
      by_cases hkind : rule.kind = kind
      · simp only [hkind, decide_true, if_true, Bool.false_eq_true, if_false, Nat.add_zero]
        omega
      · simp [hkind]

/-- Only the rules of a kind take numbers of it. -/
theorem unitsOf_filter (kind : Kind) (rules : List Rule) :
    unitsOf kind (rules.filter fun rule => rule.kind = kind) = unitsOf kind rules := by
  induction rules with
  | nil => rfl
  | cons rule rules ih =>
    by_cases hkind : rule.kind = kind
    · simp [hkind, unitsOf, ih]
    · simp [hkind, unitsOf, ih]

theorem softOf_filter (kind : Kind) (rules : List Rule) :
    softOf kind (rules.filter fun rule => rule.kind = kind) = softOf kind rules := by
  rw [softOf, softOf, List.filter_filter]
  congr 1
  exact List.filter_congr fun rule _ => by simp +contextual

namespace Numbered

/-- The numbers that a rule takes. -/
def numbers (rule : Numbered) : List Nat := List.range' rule.number rule.rule.demand.units

/-- The rules of a kind take all numbers in turn. -/
theorem flatMap_numbers_allBehind (kind : Kind) (earlier rules : List Rule) :
    ((allBehind earlier rules).filter fun rule => rule.rule.kind = kind).flatMap numbers =
      List.range' (unitsOf kind earlier + 1) (unitsOf kind rules) := by
  induction rules generalizing earlier with
  | nil => rfl
  | cons rule rules ih =>
    have hstep : unitsOf kind (earlier ++ [rule]) =
        unitsOf kind earlier + if rule.kind = kind then rule.demand.units else 0 := by
      rw [unitsOf_append]
      rfl
    have hrule : (behind earlier rule).rule = rule := rfl
    rw [allBehind, List.filter_cons, hrule, unitsOf]
    by_cases hkind : rule.kind = kind
    · rw [if_pos hkind] at hstep
      have hfirst : (behind earlier rule).numbers =
          List.range' (unitsOf kind earlier + 1) rule.demand.units := by
        rw [numbers, behind, hkind]
      rw [if_pos (decide_eq_true hkind), if_pos hkind, List.flatMap_cons, hfirst, ih, hstep,
        Nat.add_right_comm, List.range'_append_1]
    · rw [if_neg hkind] at hstep
      rw [if_neg (by simpa using hkind), if_neg hkind, ih, hstep, zero_add, add_zero]

/-- The soft rules of a kind take all places in turn. -/
theorem map_softPlace_allBehind (kind : Kind) (earlier rules : List Rule) :
    ((allBehind earlier rules).filter fun rule => rule.rule.kind = kind ∧
        rule.rule.strength.isSoft).map
        softPlace = List.range' (softOf kind earlier + 1) (softOf kind rules) := by
  induction rules generalizing earlier with
  | nil => rfl
  | cons rule rules ih =>
    have hstep : softOf kind (earlier ++ [rule]) = softOf kind earlier + softOf kind [rule] :=
      softOf_append kind earlier [rule]
    have hcons : softOf kind (rule :: rules) = softOf kind [rule] + softOf kind rules :=
      softOf_append kind [rule] rules
    have hrule : (behind earlier rule).rule = rule := rfl
    rw [allBehind, List.filter_cons, hrule, hcons]
    by_cases hsoft : rule.kind = kind ∧ rule.strength.isSoft = true
    · have hone : softOf kind [rule] = 1 := by simp [softOf, hsoft]
      have hfirst : (behind earlier rule).softPlace = softOf kind earlier + 1 := by
        rw [behind, hsoft.1]
      rw [hone] at hstep ⊢
      rw [if_pos (decide_eq_true hsoft), List.map_cons, hfirst, ih, hstep, add_comm 1,
        List.range'_succ]
    · have hnone : softOf kind [rule] = 0 := by simpa [softOf] using hsoft
      rw [hnone] at hstep ⊢
      rw [if_neg (by simpa using hsoft), ih, hstep, zero_add, add_zero]

variable {options : Options} {rule : Numbered}

/-- A rule adds no constraint if it is passed over or counts no slot with a break. -/
theorem fragment_eq_empty (h : rule.isSkipped options = true ∨ rule.isVoid = true) :
    rule.fragment options = {} := by
  cases hskip : rule.isSkipped options with
  | true => exact if_pos hskip
  | false => exact fragment_of_isVoid hskip (h.resolve_left (by simp [hskip]))

/-- A rule of another kind adds one constraint. -/
theorem exists_subtos_eq (hskip : rule.isSkipped options = false) (hvoid : rule.isVoid = false)
    (hkind : rule.rule.kind ≠ .ga1) :
    ∃ foralls rows, (rule.fragment options).subtos = [⟨rule.name, foralls, rows⟩] := by
  rw [isVoid] at hvoid
  rw [fragment_of_not_skipped hskip]
  cases hdemand : rule.rule.demand with
  | ga1 bound => exact absurd (congrArg Demand.kind hdemand) hkind
  | ca1 cap | ca2 cap | ca3 cap | se1 separation | fa2 balance =>
    exact ⟨_, _, Strength.subtos_relax _ _ _⟩
  | ca4 cap =>
    dsimp only [GroupCap.fragment]
    split <;> exact ⟨_, _, Strength.subtos_relax _ _ _⟩
  | br1 breaks | br2 breaks =>
    rw [hdemand] at hvoid
    have hcounted := of_decide_eq_false hvoid
    dsimp only [TeamBreaks.fragment, GroupBreaks.fragment]
    rw [if_neg hcounted]
    exact ⟨_, _, Strength.subtos_relax _ _ _⟩

/-- The constraints of a rule are named by its numbers. -/
theorem names_of_not_void (hskip : rule.isSkipped options = false) (hvoid : rule.isVoid = false) :
    (rule.fragment options).subtos.map (·.name) =
      rule.numbers.map (nameWith rule.rule.kind) := by
  by_cases hkind : rule.rule.kind = .ga1
  · obtain ⟨bound, hdemand⟩ := rule.rule.exists_of_kind_eq_ga1 hkind
    have hsubtos : (rule.fragment options).subtos =
        (bound.fragment options rule.rule.strength rule).subtos := by
      rw [fragment_of_not_skipped hskip, hdemand]
    rw [hsubtos, subtos_meetingBound, numbers, hdemand, Demand.units, hkind,
      List.map_cons, name, hkind]
    split <;> rfl
  · obtain ⟨foralls, rows, hsubtos⟩ := exists_subtos_eq hskip hvoid hkind
    have hunits : rule.rule.demand.units = 1 := by
      rw [Rule.units_eq, if_neg fun h => hkind (Rule.kind_of_hasMinimum h)]
    rw [hsubtos, numbers, hunits]
    rfl

/-- A rule that adds any constraint adds one for each of its numbers. -/
theorem names_subtos (h : (rule.fragment options).subtos ≠ []) :
    (rule.fragment options).subtos.map (·.name) =
      rule.numbers.map (nameWith rule.rule.kind) := by
  have hempty : ¬ (rule.isSkipped options = true ∨ rule.isVoid = true) := fun hempty =>
    h (by rw [fragment_eq_empty hempty])
  rw [not_or, Bool.not_eq_true, Bool.not_eq_true] at hempty
  exact names_of_not_void hempty.1 hempty.2

end Numbered

end RoundRobin
