import RoundRobin.Proofs.Meaning.Declarations
import RoundRobin.Proofs.Scoping.Frame

/-! What a rule declares, and that its rows and charges use only this and what the frame declares. A
soft rule refers to violations that it declares itself or that the frame declares for its kind. -/

namespace RoundRobin

open Zimpl

/-- All that the rows and the charges of a fragment use is in scope. -/
structure Fragment.Scoped (context : Context) (fragment : Fragment) : Prop where
  rows : ∀ block ∈ fragment.subtos, block.scoped context = true
  charges : ∀ charge ∈ fragment.charges, charge.scoped context = true

theorem Fragment.Scoped.append {context : Context} {a b : Fragment} (ha : a.Scoped context)
    (hb : b.Scoped context) : (a ++ b).Scoped context :=
  ⟨List.forall_mem_append.mpr ⟨ha.rows, hb.rows⟩,
    List.forall_mem_append.mpr ⟨ha.charges, hb.charges⟩⟩

theorem Fragment.scoped_empty (context : Context) : Fragment.Scoped context {} :=
  ⟨fun _ h => (nomatch h), fun _ h => nomatch h⟩

section Terms

variable {context : Context}

@[simp] theorem scoped_onSide (side : Side) (home away : Linear) :
    (onSide side home away).scoped context = ((!side.countsHome || home.scoped context)
      && (!side.countsAway || away.scoped context)) := by
  cases side <;> simp [onSide, Side.countsHome, Side.countsAway]

@[simp] theorem scoped_atMost (bound : Nat) (violation : Option Linear) :
    (atMost bound violation).scoped context = violation.all (·.scoped context) := by
  cases violation <;> simp [atMost]

@[simp] theorem scoped_atLeast (bound : Nat) (violation : Option Linear) :
    (atLeast bound violation).scoped context = violation.all (·.scoped context) := by
  cases violation <;> simp [atLeast]

@[simp] theorem scoped_slotBack (back : Nat) :
    (slotBack back).scoped context = context.admits "s" := by
  unfold slotBack
  split <;> simp

end Terms

section Fragments

variable {t : Tournament} {context : Context} {strength : Strength} {rule : Numbered}
  (hbase : context.Declares (Frame.baseEntities t))
include hbase

theorem SideCap.scoped_fragment (cap : SideCap)
    (hviolation : strength.isSoft = true → context.entity? "ca1_viol" = some (.variable 1)) :
    (cap.fragment strength rule).Scoped context := by
  have hT := Frame.entity?_teams hbase
  have hx := Frame.entity?_games hbase
  unfold SideCap.fragment
  cases strength with
  | hard => constructor <;> cases cap.side <;> simp [Strength.relax, othersThan, playedIn, hT, hx]
  | soft penalty =>
    have hviolation := hviolation rfl
    constructor <;> cases cap.side <;>
      simp [Strength.relax, Violation.member, othersThan, playedIn, hT, hx, hviolation]

theorem OpponentCap.scoped_fragment (cap : OpponentCap)
    (hviolation : strength.isSoft = true → context.entity? "ca2_viol" = some (.variable 1)) :
    (cap.fragment strength rule).Scoped context := by
  have hx := Frame.entity?_games hbase
  unfold OpponentCap.fragment
  cases strength with
  | hard => constructor <;> simp [Strength.relax, times, playedIn, hx]
  | soft penalty =>
    have hviolation := hviolation rfl
    constructor <;> simp [Strength.relax, Violation.member, times, playedIn, hx, hviolation]

theorem WindowCap.scoped_fragment (cap : WindowCap)
    (hviolation : strength.isSoft = true →
      context.entity? rule.violationName = some (.variable 1)) :
    (cap.fragment strength rule).Scoped context := by
  have hS := Frame.entity?_slots hbase
  have hx := Frame.entity?_games hbase
  unfold WindowCap.fragment
  cases strength with
  | hard => constructor <;> simp [Strength.relax, playedIn, hS, hx]
  | soft penalty =>
    have hviolation := hviolation rfl
    constructor <;> simp [Strength.relax, Violation.array, playedIn, hS, hx, hviolation]

theorem GroupCap.scoped_fragment (cap : GroupCap)
    (hviolation : strength.isSoft = true → context.entity? rule.violationName =
      some (.variable (match cap.scope with | .global => 0 | .every => 1))) :
    (cap.fragment strength rule).Scoped context := by
  have hx := Frame.entity?_games hbase
  unfold GroupCap.fragment
  cases hscope : cap.scope <;> rw [hscope] at hviolation <;> cases strength with
  | hard => constructor <;> simp [Strength.relax, times, playedIn, hx]
  | soft penalty =>
    have hviolation := hviolation rfl
    constructor <;> simp [Strength.relax, Violation.scalar, Violation.array, times, playedIn, hx,
      hviolation]

theorem MeetingBound.scoped_fragment (bound : MeetingBound) (options : Options)
    (habove : strength.isSoft = true → context.entity? "ga1_viol" = some (.variable 1))
    (hbelow : strength.isSoft = true → options.minPenalty = .separate →
      context.entity? "ga1_min_viol" = some (.variable 1)) :
    (bound.fragment options strength rule).Scoped context := by
  have hx := Frame.entity?_games hbase
  unfold MeetingBound.fragment MeetingBound.most MeetingBound.least MeetingBound.counted
  cases strength with
  | hard =>
    split
    · constructor <;> simp [Strength.relax, playedIn, hx]
    · split <;> refine Fragment.Scoped.append ?_ ?_ <;> constructor <;>
        simp [Strength.relax, playedIn, hx]
  | soft penalty =>
    have habove := habove rfl
    split
    · constructor <;> simp [Strength.relax, Violation.member, playedIn, hx, habove]
    · split
      · refine Fragment.Scoped.append ?_ ?_ <;> constructor <;>
          simp [Strength.relax, Violation.member, playedIn, hx, habove]
      · rename_i hseparate
        have hbelow := hbelow rfl hseparate
        refine Fragment.Scoped.append ?_ ?_ <;> constructor <;>
          simp [Strength.relax, Violation.member, playedIn, hx, habove, hbelow]

theorem Separation.scoped_fragment (separation : Separation)
    (hviolation : strength.isSoft = true →
      context.entity? rule.violationName = some (.variable 2)) :
    (separation.fragment strength rule).Scoped context := by
  have hS := Frame.entity?_slots hbase
  have hx := Frame.entity?_games hbase
  unfold Separation.fragment
  cases strength with
  | hard => constructor <;> simp [Strength.relax, pairsOf, times, playedIn, hS, hx]
  | soft penalty =>
    have hviolation := hviolation rfl
    constructor <;>
      simp [Strength.relax, Violation.array, pairsOf, times, playedIn, hS, hx, hviolation]

theorem TeamBreaks.scoped_fragment (breaks : TeamBreaks) (hbreaks : t.hasBreaks = true)
    (hviolation : strength.isSoft = true → breaks.countedSlots ≠ [] →
      context.entity? rule.violationName = some (.variable 0)) :
    (breaks.fragment strength rule).Scoped context := by
  obtain ⟨hbh, hba⟩ := Frame.entity?_breaks hbase hbreaks
  unfold TeamBreaks.fragment
  split
  · exact Fragment.scoped_empty context
  · rename_i hcounted
    cases strength with
    | hard => constructor <;> simp [Strength.relax, breakOn, hbh, hba]
    | soft penalty =>
      have hviolation := hviolation rfl hcounted
      constructor <;> simp [Strength.relax, Violation.scalar, breakOn, hbh, hba, hviolation]

theorem GroupBreaks.scoped_fragment (breaks : GroupBreaks) (hbreaks : t.hasBreaks = true)
    (hviolation : strength.isSoft = true → breaks.countedSlots ≠ [] →
      context.entity? rule.violationName = some (.variable 0)) :
    (breaks.fragment strength rule).Scoped context := by
  obtain ⟨hbh, hba⟩ := Frame.entity?_breaks hbase hbreaks
  unfold GroupBreaks.fragment
  split
  · exact Fragment.scoped_empty context
  · rename_i hcounted
    cases strength with
    | hard => constructor <;> simp [Strength.relax, breakOn, times, hbh, hba]
    | soft penalty =>
      have hviolation := hviolation rfl hcounted
      constructor <;> simp [Strength.relax, Violation.scalar, breakOn, times, hbh, hba, hviolation]

omit hbase in
theorem HomeBalance.scoped_fragment (balance : HomeBalance)
    (hhg : context.entity? "hg" = some (.variable 2))
    (hset : context.entity? rule.pairSet = some (.set 2)) (hviolation : strength.isSoft = true →
      context.entity? rule.violationName = some (.variable 2)) :
    (balance.fragment strength rule).Scoped context := by
  rw [Numbered.pairSet] at hset
  unfold HomeBalance.fragment
  generalize "FA2_" ++ toString rule.number = pairs at hset ⊢
  cases strength with
  | hard => constructor <;> simp [Strength.relax, Fragment.declare, hhg, hset]
  | soft penalty =>
    have hviolation := hviolation rfl
    constructor <;>
      simp [Strength.relax, Violation.array, Fragment.declare, hhg, hset, hviolation]

end Fragments

end RoundRobin
