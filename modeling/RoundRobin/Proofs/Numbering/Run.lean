import Mathlib.Logic.Function.Iterate
import RoundRobin.Proofs.Numbering.Behind
import RoundRobin.Proofs.Steps

/-! Counters and the closed form of numbers. A rule moves the counters on by what its kind and
strength ask for, however it ends: passed over, empty, or with a second number. So the counters
behind some rules hold how many numbers these take and, where soft rules are formulated, how many of
them are soft, and the rules of a tournament are formulated under the numbers of the closed form. -/

namespace RoundRobin

open Zimpl

variable {options : Options} {counters : Counters} {earlier : List Rule} {rule : Rule}

/-- The kinds whose soft rules share an array of violations. -/
def Kind.shares (kind : Kind) : Bool := kind ∈ [ca1, ca2, ga1]

namespace Rule

/-- Whether a rule takes a place in the array that its kind shares. -/
def takesPlace (options : Options) (rule : Rule) : Bool :=
  options.soft && rule.strength.isSoft && rule.kind.shares

theorem takesPlace_of_isSkipped (h : rule.isSkipped options = true) :
    rule.takesPlace options = false := by
  rw [isSkipped, Bool.and_eq_true] at h
  simp_all [takesPlace]

theorem takesPlace_of_not_skipped (h : rule.isSkipped options = false)
    (hkind : rule.kind.shares = true) : rule.takesPlace options = rule.strength.isSoft := by
  rw [isSkipped] at h
  rw [takesPlace, hkind, Bool.and_true]
  cases hsoft : options.soft <;> simp_all

end Rule

theorem Counter.count_iterate_advance (kind other : Kind) (units : Nat) (counter : Counter) :
    ((advance · kind)^[units] counter).count other =
      counter.count other + if other = kind then units else 0 := by
  induction units generalizing counter with
  | zero => simp
  | succ units ih =>
    rw [Function.iterate_succ_apply, ih, count_advance]
    split <;> omega

namespace Counters

/-- The numbers that a rule takes from the counters. -/
def next (options : Options) (counters : Counters) (rule : Rule) : Numbered :=
  ⟨rule, counters.numbers.count rule.kind + 1,
    if rule.takesPlace options then counters.members.count rule.kind + 1 else 0⟩

/-- The counters behind a rule. -/
def after (options : Options) (counters : Counters) (rule : Rule) : Counters where
  numbers := (Counter.advance · rule.kind)^[rule.demand.units] counters.numbers
  members :=
    if rule.takesPlace options then counters.members.advance rule.kind else counters.members

/-- What the counters hold behind some rules. -/
structure Behind (options : Options) (earlier : List Rule) (counters : Counters) : Prop where
  numbers : ∀ kind, counters.numbers.count kind = unitsOf kind earlier
  members : ∀ kind, counters.members.count kind =
    if options.soft ∧ kind.shares then softOf kind earlier else 0

theorem behind_nil (options : Options) : Behind options [] {} where
  numbers kind := rfl
  members kind := by simp [softOf]

/-- Behind one rule more, the counters have moved on by what it takes. -/
theorem Behind.after (h : counters.Behind options earlier) (rule : Rule) :
    (counters.after options rule).Behind options (earlier ++ [rule]) where
  numbers kind := by
    have hone : unitsOf kind [rule] = if kind = rule.kind then rule.demand.units else 0 := by
      simp [unitsOf, eq_comm]
    rw [Counters.after, Counter.count_iterate_advance, h.numbers, unitsOf_append, hone]
  members kind := by
    have hstep : (counters.after options rule).members.count kind = counters.members.count kind
        + if kind = rule.kind ∧ rule.takesPlace options then 1 else 0 := by
      rw [Counters.after]
      cases rule.takesPlace options <;> simp
    have hone : softOf kind [rule] = if kind = rule.kind ∧ rule.strength.isSoft then 1 else 0 := by
      by_cases hsoft : rule.kind = kind ∧ rule.strength.isSoft = true
      · simp [softOf, hsoft]
      · rw [if_neg fun h => hsoft ⟨h.1.symm, h.2⟩, softOf, List.length_eq_zero_iff,
          List.filter_eq_nil_iff]
        simpa using hsoft
    rw [hstep, h.members, softOf_append, hone, Rule.takesPlace]
    by_cases hkind : kind = rule.kind
    · subst hkind
      cases options.soft <;> cases rule.kind.shares <;> simp
    · simp [hkind]

end Counters

/-- The number is taken before the rule is checked and before it may be passed over. -/
theorem Rule.run_formulateWith (rule : Rule) (options : Options) (check : Except Failure Unit)
    (fragment : Nat → Formulating Fragment) (counters : Counters) :
    (rule.formulateWith options check fragment).run counters = check >>= fun _ =>
      if rule.isSkipped options then
        .ok ({}, { counters with numbers := counters.numbers.advance rule.kind })
      else (fragment (counters.numbers.count rule.kind + 1)).run
        { counters with numbers := counters.numbers.advance rule.kind } := by
  unfold formulateWith
  cases check with
  | error failure => rfl
  | ok done => cases rule.isSkipped options <;> rfl

/-- A rule that gives way by violations of its own takes one number and no place. -/
theorem Rule.run_alone (check : Except Failure Unit) (fragment : Strength → Numbered → Fragment)
    (counters : Counters) (hunits : rule.demand.units = 1) (hkind : rule.kind.shares = false) :
    (rule.formulateWith options check (rule.alone fragment)).run counters = check >>= fun _ =>
      .ok (if rule.isSkipped options then {}
        else fragment rule.strength (counters.next options rule), counters.after options rule) := by
  have hplace : rule.takesPlace options = false := by simp [takesPlace, hkind]
  rw [run_formulateWith, Counters.next, Counters.after, hplace, hunits]
  cases rule.isSkipped options <;> rfl

/-- A rule of a kind that shares takes one number and, if it is soft and not passed over, a
place. -/
theorem Rule.run_sharing (check : Except Failure Unit) (fragment : Strength → Numbered → Fragment)
    (counters : Counters) (hunits : rule.demand.units = 1) (hkind : rule.kind.shares = true) :
    (rule.formulateWith options check (rule.sharing fragment)).run counters = check >>= fun _ =>
      .ok (if rule.isSkipped options then {}
        else fragment rule.strength (counters.next options rule), counters.after options rule) := by
  rw [run_formulateWith, Counters.next, Counters.after, hunits]
  cases hskip : rule.isSkipped options with
  | true =>
    rw [takesPlace_of_isSkipped hskip]
    rfl
  | false =>
    rw [takesPlace_of_not_skipped hskip hkind, sharing]
    cases rule.strength.isSoft <;> rfl

namespace MeetingBound

variable {bound : MeetingBound}

/-- The lower bound of a rule that is passed over still takes its number. -/
theorem run_of_skipped (hskip : rule.isSkipped options = true) (counters : Counters) :
    (bound.formulate options rule).run counters = .ok ({}, { counters with
      numbers := (Counter.advance · .ga1)^[(Demand.ga1 bound).units] counters.numbers }) := by
  rw [formulate, hskip, Demand.units]
  by_cases hmin : bound.min = 0
  · rw [if_pos hmin, if_neg (not_not.mpr hmin)]
    rfl
  · rw [if_neg hmin, if_pos hmin]
    rfl

theorem run_of_meetings_eq_nil (hskip : rule.isSkipped options = false)
    (hnone : bound.meetings = [])
    (counters : Counters) : (bound.formulate options rule).run counters =
      .error (.structural (.noMeetings .ga1 (counters.numbers.count .ga1 + 1))) := by
  rw [formulate, hskip]
  simp only [if_pos hnone]
  rfl

theorem run_of_meetings_ne_nil (hskip : rule.isSkipped options = false)
    (hsome : bound.meetings ≠ [])
    (counters : Counters) : (bound.formulate options rule).run counters =
      .ok (bound.fragment options rule.strength ⟨rule, counters.numbers.count .ga1 + 1,
          if rule.strength.isSoft then counters.members.count .ga1 + 1 else 0⟩,
        ⟨(Counter.advance · .ga1)^[(Demand.ga1 bound).units] counters.numbers,
          if rule.strength.isSoft then counters.members.advance .ga1 else counters.members⟩) := by
  rw [formulate, hskip, fragment, Demand.units]
  by_cases hmin : bound.min = 0
  · simp only [if_neg hsome, if_pos hmin]
    cases rule.strength.isSoft <;> rfl
  · simp only [if_neg hsome, if_neg hmin]
    cases rule.strength.isSoft <;> rfl

/-- A rule on meetings is checked, unless it is passed over, and takes its numbers either way. -/
theorem run_formulate (hdemand : rule.demand = .ga1 bound) (counters : Counters) :
    (bound.formulate options rule).run counters =
      (counters.next options rule).check options >>= fun _ =>
        .ok ((counters.next options rule).fragment options, counters.after options rule) := by
  have hkind : rule.kind = .ga1 := congrArg Demand.kind hdemand
  have hcheck : (counters.next options rule).check options =
      if bound.meetings = [] ∧ !rule.isSkipped options then
        .error (.structural (.noMeetings .ga1 (counters.next options rule).number))
      else .ok () := by
    rw [Numbered.check, Counters.next, hdemand]
    rfl
  have hfragment : (counters.next options rule).fragment options =
      if rule.isSkipped options then {}
      else bound.fragment options rule.strength (counters.next options rule) := by
    rw [Numbered.fragment, Counters.next, hdemand]
    rfl
  rw [hcheck, hfragment, Counters.next, Counters.after, hdemand, hkind]
  cases hskip : rule.isSkipped options with
  | true =>
    rw [run_of_skipped hskip, Rule.takesPlace_of_isSkipped hskip, if_neg (by simp)]
    rfl
  | false =>
    rw [Rule.takesPlace_of_not_skipped hskip (by rw [hkind]; rfl)]
    by_cases hnone : bound.meetings = []
    · rw [run_of_meetings_eq_nil hskip hnone, if_pos ⟨hnone, rfl⟩]
      rfl
    · rw [run_of_meetings_ne_nil hskip hnone, if_neg (mt And.left hnone)]
      rfl

end MeetingBound

/-- Each rule is checked and formulated under the numbers that it takes, and moves the counters on
by what its kind and strength ask for. -/
theorem Rule.run_formulate (options : Options) (rule : Rule) (counters : Counters) :
    (rule.formulate options).run counters =
      (counters.next options rule).check options >>= fun _ =>
        .ok ((counters.next options rule).fragment options, counters.after options rule) := by
  have hrule : (counters.next options rule).rule = rule := rfl
  unfold formulate Numbered.check Numbered.fragment
  rw [hrule]
  cases hdemand : rule.demand with
  | ga1 bound =>
    rw [MeetingBound.run_formulate hdemand, Numbered.check, Numbered.fragment, hrule, hdemand]
  | ca1 cap | ca2 cap =>
    exact run_sharing _ _ _ (by rw [hdemand]; rfl) (by rw [Rule.kind, hdemand]; rfl)
  | _ =>
    exact run_alone _ _ _ (by rw [hdemand]; rfl) (by rw [Rule.kind, hdemand]; rfl)

namespace Numbered

/-- What a rule adds does not depend on a place that it does not take. -/
theorem fragment_congr {a b : Numbered} (hrule : a.rule = b.rule) (hnumber : a.number = b.number)
    (hplace : a.rule.takesPlace options = true → a.softPlace = b.softPlace) :
    a.fragment options = b.fragment options := by
  obtain ⟨rule, number, place⟩ := a
  obtain ⟨_, _, place'⟩ := b
  obtain rfl : rule = _ := hrule
  obtain rfl : number = _ := hnumber
  have hsame : isSkipped options ⟨rule, number, place⟩ = rule.isSkipped options := rfl
  have hsame' : isSkipped options ⟨rule, number, place'⟩ = rule.isSkipped options := rfl
  unfold fragment
  rw [hsame, hsame']
  cases hskip : rule.isSkipped options with
  | true => rfl
  | false =>
    have hshared : rule.kind.shares = true → rule.strength = .hard ∨
        place = place' := fun hkind => by
      have htakes := Rule.takesPlace_of_not_skipped hskip hkind
      cases hstrength : rule.strength with
      | hard => exact .inl rfl
      | soft penalty => exact .inr (hplace (by rw [htakes, hstrength]; rfl))
    cases hdemand : rule.demand with
    | ca1 cap | ca2 cap | ga1 bound =>
      rcases hshared (by rw [Rule.kind, hdemand]; rfl) with hhard | rfl
      · simp only [hhard]
        rfl
      · rfl
    | _ => rfl

/-- Only rules on meetings fail by their number. -/
theorem check_congr {a b : Numbered} (hrule : a.rule = b.rule) (hnumber : a.number = b.number) :
    a.check options = b.check options := by
  rw [check, check, isSkipped, isSkipped, hrule, hnumber]

variable (h : counters.Behind options earlier) (rule : Rule)
include h

theorem check_next : (counters.next options rule).check options =
    (behind earlier rule).check options :=
  check_congr rfl (congrArg (· + 1) (h.numbers rule.kind))

theorem fragment_next : (counters.next options rule).fragment options =
    (behind earlier rule).fragment options := by
  refine fragment_congr rfl (congrArg (· + 1) (h.numbers rule.kind)) fun htakes => ?_
  have htakes : rule.takesPlace options = true := htakes
  have hmembers : counters.members.count rule.kind = softOf rule.kind earlier := by
    simp only [Rule.takesPlace, Bool.and_eq_true] at htakes
    rw [h.members, if_pos ⟨htakes.1.1, htakes.2⟩]
  rw [Counters.next, if_pos htakes, hmembers]
  rfl

end Numbered

/-- Behind other rules, rules are formulated one after another under the numbers of the closed
form. -/
theorem run_parts (h : counters.Behind options earlier) (rules : List Rule) :
    ∃ after, after.Behind options (earlier ++ rules) ∧
      (rules.mapM (Rule.part options)).run counters =
        (Numbered.allBehind earlier rules).forM (Numbered.check options) >>= fun _ =>
          .ok ((Numbered.allBehind earlier rules).map (Numbered.part options), after) := by
  induction rules generalizing counters earlier with
  | nil => exact ⟨counters, by rwa [List.append_nil], rfl⟩
  | cons rule rules ih =>
    obtain ⟨after, hafter, hrules⟩ := ih (h.after rule)
    refine ⟨after, by rwa [List.append_assoc] at hafter, ?_⟩
    have hrule : (rule.part options).run counters =
        (Numbered.behind earlier rule).check options >>= fun _ =>
          .ok ((Numbered.behind earlier rule).part options, counters.after options rule) := by
      rw [Rule.part, StateT.run_bind, rule.run_formulate, Numbered.check_next h,
        Numbered.fragment_next h]
      cases (Numbered.behind earlier rule).check options <;> rfl
    rw [List.mapM_cons, StateT.run_bind, hrule]
    show _ = (Numbered.check options (Numbered.behind earlier rule) >>= fun _ =>
      (Numbered.allBehind (earlier ++ [rule]) rules).forM (Numbered.check options)) >>= _
    cases (Numbered.behind earlier rule).check options with
    | error failure => rfl
    | ok done =>
      show ((rules.mapM (Rule.part options) >>= fun parts => pure (_ :: parts)).run _) = _
      rw [StateT.run_bind, hrules]
      show _ = (Numbered.allBehind (earlier ++ [rule]) rules).forM (Numbered.check options) >>= _
      cases (Numbered.allBehind (earlier ++ [rule]) rules).forM (Numbered.check options) <;> rfl

/-- Rules that can all be formulated. -/
theorem run_parts_ok (h : counters.Behind options earlier) {rules : List Rule}
    (hcheck : ∀ rule ∈ Numbered.allBehind earlier rules, rule.check options = .ok ()) :
    ∃ after, after.Behind options (earlier ++ rules) ∧
      (rules.mapM (Rule.part options)).run counters =
        .ok ((Numbered.allBehind earlier rules).map (Numbered.part options), after) := by
  obtain ⟨after, hafter, hrules⟩ := run_parts h rules
  rw [forM_eq_ok hcheck] at hrules
  exact ⟨after, hafter, hrules⟩

theorem Rule.run_formulate_ok (h : counters.Behind options earlier)
    (hcheck : (Numbered.behind earlier rule).check options = .ok ()) :
    (rule.formulate options).run counters =
      .ok ((Numbered.behind earlier rule).fragment options, counters.after options rule) := by
  rw [run_formulate, Numbered.check_next h, Numbered.fragment_next h, hcheck]
  rfl

namespace Tournament

variable {t : Tournament} {failure : Failure}

theorem exists_parts_eq (t : Tournament) (options : Options) :
    ∃ counters, counters.Behind options t.rules ∧ t.parts options =
      t.numbered.forM (Numbered.check options) >>= fun _ =>
        .ok (t.numberedParts options, counters) :=
  run_parts (Counters.behind_nil options) t.rules

theorem parts_eq_ok (hcheck : ∀ rule ∈ t.numbered, rule.check options = .ok ()) :
    ∃ counters, counters.Behind options t.rules ∧
      t.parts options = .ok (t.numberedParts options, counters) :=
  run_parts_ok (Counters.behind_nil options) hcheck

/-- A tournament is formulated as the closed form says: its rules are checked in order, and the
program is made of what each adds. -/
theorem formulate_eq (t : Tournament) (options : Options) : t.formulate options =
    t.numbered.forM (Numbered.check options) >>= fun _ => .ok (t.program options) := by
  obtain ⟨counters, -, hparts⟩ := t.exists_parts_eq options
  rw [formulate, hparts, ← t.assemble_numberedParts]
  cases t.numbered.forM (Numbered.check options) <;> rfl

theorem formulate_eq_ok (h : ∀ rule ∈ t.numbered, rule.check options = .ok ()) :
    t.formulate options = .ok (t.program options) := by
  rw [formulate_eq, forM_eq_ok h]
  rfl

/-- A program is formulated if each of its rules can be. -/
theorem of_formulate {program : Zimpl.Program} (h : t.formulate options = .ok program) :
    program = t.program options ∧ ∀ rule ∈ t.numbered, rule.check options = .ok () := by
  rw [formulate_eq] at h
  obtain ⟨⟨⟩, hrules, h⟩ := bind_eq_ok h
  exact ⟨(Except.ok.inj h).symm, of_forM_eq_ok hrules⟩

theorem formulate_eq_error_iff : t.formulate options = .error failure ↔
    t.numbered.forM (Numbered.check options) = .error failure := by
  rw [formulate_eq, bind_eq_error_iff]
  simp

end Tournament

end RoundRobin
