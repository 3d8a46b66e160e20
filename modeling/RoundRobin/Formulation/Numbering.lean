import RoundRobin.Failure
import RoundRobin.Tournament

/-! Numbers of rules. The rules of a tournament are formulated one after another, and counters go
from each rule to the next. A rule takes its numbers from the counter of its kind, whether or not it
adds anything to the program, and a soft rule may take a member of an array that its kind shares. -/

namespace RoundRobin

/-- How much of something each kind has taken. -/
structure Counter where
  counts : List (Kind × Nat) := []
deriving DecidableEq, Repr

namespace Counter

def count (counter : Counter) (kind : Kind) : Nat := (counter.counts.lookup kind).getD 0

/-- The next of a kind is taken. -/
def advance (counter : Counter) (kind : Kind) : Counter :=
  ⟨(kind, counter.count kind + 1) :: counter.counts.filter (·.1 ≠ kind)⟩

@[simp] theorem count_empty (kind : Kind) : ({} : Counter).count kind = 0 := rfl

theorem lookup_filter_ne {kind other : Kind} (h : other ≠ kind) (counts : List (Kind × Nat)) :
    (counts.filter (·.1 ≠ kind)).lookup other = counts.lookup other := by
  induction counts with
  | nil => rfl
  | cons entry counts ih =>
    obtain ⟨found, count⟩ := entry
    by_cases hkind : found = kind
    · have hother : (other == found) = false := beq_eq_false_iff_ne.mpr (hkind ▸ h)
      rw [List.filter_cons_of_neg (by simpa using hkind), ih, List.lookup_cons, hother]
    · rw [List.filter_cons_of_pos (by simpa using hkind), List.lookup_cons, List.lookup_cons, ih]

@[simp] theorem count_advance (counter : Counter) (kind other : Kind) :
    (counter.advance kind).count other = counter.count other + if other = kind then 1 else 0 := by
  by_cases h : other = kind
  · simp [h, advance, count]
  · have hkind : (other == kind) = false := beq_eq_false_iff_ne.mpr h
    rw [advance, count, List.lookup_cons, hkind, if_neg h]
    exact congrArg (Option.getD · 0) (lookup_filter_ne h counter.counts)

end Counter

/-- What the rules formulated so far have taken. -/
structure Counters where
  numbers : Counter := {}
  /-- The members of the arrays that the soft rules of a kind share. -/
  members : Counter := {}
deriving DecidableEq, Repr

/-- Steps in formulating rules. -/
abbrev Formulating := StateT Counters (Except Failure)

/-- Takes the next number of a kind. -/
def nextNumber (kind : Kind) : Formulating Nat :=
  modifyGet fun counters =>
    (counters.numbers.count kind + 1, { counters with numbers := counters.numbers.advance kind })

/-- Takes the next member of the array that the soft rules of a kind share. -/
def nextMember (kind : Kind) : Formulating Nat :=
  modifyGet fun counters =>
    (counters.members.count kind + 1, { counters with members := counters.members.advance kind })

/-- A rule with its first number and its place in the array that the soft rules of its kind share,
if they share one. -/
structure Numbered where
  rule : Rule
  number : Nat
  softPlace : Nat
deriving DecidableEq, Repr

namespace Numbered

/-- The name of the constraint with a number. -/
def nameWith (kind : Kind) (number : Nat) : String := kind.stem ++ "_" ++ toString number

/-- The name of the rule's first constraint. -/
def name (rule : Numbered) : String := nameWith rule.rule.kind rule.number

/-- The name of a violation that belongs to the rule alone. -/
def violationName (rule : Numbered) : String := rule.name ++ "_viol"

end Numbered

end RoundRobin
