import RoundRobin.Proofs.Meaning.Violation

/-! Which variables the terms of a program refer to, and which of those are violations. -/

namespace RoundRobin

namespace Zimpl

/-- A variable with its subscripts, as a term refers to it. -/
abbrev Reference := String × List Arith

mutual

/-- The references in a term, in reading order and with repeats. -/
def Linear.references : Linear → List Reference
  | .const _ => []
  | .var name subscripts => [(name, subscripts)]
  | .sum terms => Linear.allReferences terms
  | .diff a b => a.references ++ b.references
  | .scaled _ term => term.references
  | .weighted term _ => term.references
  | .sumOver _ body => body.references
  | .abs term => term.references

def Linear.allReferences : List Linear → List Reference
  | [] => []
  | term :: terms => term.references ++ Linear.allReferences terms

end

/-- Two references that are to different variables, or to different literal places of one. -/
def Reference.Apart (a b : Reference) : Prop :=
  a.1 ≠ b.1 ∨ ∃ i j : Int, i ≠ j ∧ a.2 = [.int i] ∧ b.2 = [.int j]

theorem Reference.Apart.ne {a b : Reference} (h : a.Apart b) : a ≠ b := by
  rintro rfl
  rcases h with h | ⟨i, j, hij, hi, hj⟩
  · exact h rfl
  · have hsame : Arith.int i = Arith.int j := (List.cons.inj (hi.symm.trans hj)).1
    exact hij (Arith.int.inj hsame)

end Zimpl

open Zimpl

/-- A variable is a violation unless it says which games or breaks there are or counts home
games. -/
def isViolation (name : String) : Bool := name ∉ ["x", "bh", "ba", "hg"]

/-- The references to violations in a term. -/
def Zimpl.Linear.violations (term : Linear) : List Reference :=
  term.references.filter fun reference => isViolation reference.1

def Zimpl.Row.violations (row : Row) : List Reference := row.lhs.violations ++ row.rhs.violations

def Zimpl.Subto.violations (block : Subto) : List Reference := block.rows.flatMap Row.violations

section Terms

@[simp] theorem violations_const (value : Arith) : (Linear.const value).violations = [] := rfl

@[simp] theorem violations_var (name : String) (subscripts : List Arith) :
    (Linear.var name subscripts).violations =
      if isViolation name then [(name, subscripts)] else [] := by
  simp [Linear.violations, Linear.references, List.filter_singleton]

@[simp] theorem violations_diff (a b : Linear) :
    (Linear.diff a b).violations = a.violations ++ b.violations := by
  simp [Linear.violations, Linear.references]

@[simp] theorem violations_scaled (factor : Arith) (term : Linear) :
    (Linear.scaled factor term).violations = term.violations := rfl

@[simp] theorem violations_weighted (term : Linear) (weight : Int) :
    (Linear.weighted term weight).violations = term.violations := rfl

@[simp] theorem violations_sumOver (index : Index) (body : Linear) :
    (Linear.sumOver index body).violations = body.violations := rfl

@[simp] theorem violations_abs (term : Linear) :
    (Linear.abs term).violations = term.violations := rfl

theorem violations_sum (terms : List Linear) :
    (Linear.sum terms).violations = terms.flatMap Linear.violations := by
  rw [Linear.violations, Linear.references]
  induction terms with
  | nil => rfl
  | cons term terms ih =>
    rw [Linear.allReferences, List.filter_append, ih]
    rfl

theorem flatMap_violations_summands (term : Linear) :
    term.summands.flatMap Linear.violations = term.violations := by
  cases term with
  | sum terms => exact (violations_sum terms).symm
  | _ => exact List.append_nil _

@[simp] theorem violations_plus (terms : List Linear) :
    (Linear.plus terms).violations = terms.flatMap Linear.violations :=
  Linear.plus_eq_flatMap flatMap_violations_summands terms

@[simp] theorem violations_playedIn (home away slot : Arith) :
    (playedIn home away slot).violations = [] := rfl

@[simp] theorem violations_eitherWay (a b slot : Arith) :
    (eitherWay a b slot).violations = [] := rfl

@[simp] theorem violations_one : one.violations = [] := rfl

@[simp] theorem violations_onSide (side : Side) (home away : Linear) :
    (onSide side home away).violations = (if side.countsHome then home.violations else [])
      ++ if side.countsAway then away.violations else [] := by
  cases side <;> simp [onSide, Side.countsHome, Side.countsAway]

@[simp] theorem violations_breakOn (side : Side) : (breakOn side).violations = [] := by
  cases side <;> rfl

/-- The references to violations in what relaxes a row. -/
def violationsIn : Option Linear → List Reference
  | none => []
  | some violation => violation.violations

@[simp] theorem violations_atMost (bound : Nat) (violation : Option Linear) :
    (atMost bound violation).violations = violationsIn violation := by
  cases violation <;> simp [atMost, violationsIn]

@[simp] theorem violations_atLeast (bound : Nat) (violation : Option Linear) :
    (atLeast bound violation).violations = violationsIn violation := by
  cases violation <;> simp [atLeast, violationsIn]

end Terms

end RoundRobin
