import RoundRobin.Zimpl.Term

/-! Terms over the variables of a Zimpl program. Only the weights and subscripts of variables are
arithmetic, so a term is linear up to the absolute value. -/

namespace RoundRobin.Zimpl

/-- A term over model variables. -/
inductive Linear where
  | const (value : Arith)
  /-- A variable with its subscripts; a scalar has none. -/
  | var (name : String) (subscripts : List Arith)
  | sum (terms : List Linear)
  | diff (a b : Linear)
  | scaled (factor : Arith) (term : Linear)
  /-- A term of an objective; its weight is written behind it. -/
  | weighted (term : Linear) (weight : Int)
  | sumOver (index : Index) (body : Linear)
  | abs (term : Linear)

instance : Inhabited Linear := ⟨.sum []⟩

/-- The terms that a term adds to a sum: those of a sum, else the term itself. -/
def Linear.summands : Linear → List Linear
  | .sum terms => terms
  | term => [term]

/-- The sum of some terms, whose own sums are opened once. A single summand stands for itself. -/
def Linear.plus (terms : List Linear) : Linear :=
  match terms.flatMap summands with
  | [term] => term
  | summands => .sum summands

/-- What a term has of its summands, a sum has of its terms. -/
theorem Linear.plus_eq_flatMap {collect : Linear → List α}
    (h : ∀ term, term.summands.flatMap collect = collect term) (terms : List Linear) :
    collect (plus terms) = terms.flatMap collect := by
  have hall : (terms.flatMap summands).flatMap collect = terms.flatMap collect := by
    rw [List.flatMap_assoc]
    simp only [h]
  rw [← hall, plus]
  split
  · rename_i hone
    rw [hone, List.flatMap_singleton]
  · exact (h _).symm

mutual

/-- The names of the variables in a term, in reading order and with repeats. -/
def Linear.varNames : Linear → List String
  | .const _ => []
  | .var name _ => [name]
  | .sum terms => Linear.varNamesAll terms
  | .diff a b => a.varNames ++ b.varNames
  | .scaled _ term => term.varNames
  | .weighted term _ => term.varNames
  | .sumOver _ body => body.varNames
  | .abs term => term.varNames

def Linear.varNamesAll : List Linear → List String
  | [] => []
  | term :: terms => term.varNames ++ Linear.varNamesAll terms

end

mutual

/-- Whether two terms are the same tree. -/
def Linear.same : Linear → Linear → Bool
  | .const a, .const b => a == b
  | .var x as, .var y bs => x == y && as == bs
  | .sum as, .sum bs => Linear.sameAll as bs
  | .diff a b, .diff c d => a.same c && b.same d
  | .scaled m a, .scaled n b => m == n && a.same b
  | .weighted a v, .weighted b w => a.same b && v == w
  | .sumOver i a, .sumOver j b => i == j && a.same b
  | .abs a, .abs b => a.same b
  | _, _ => false

def Linear.sameAll : List Linear → List Linear → Bool
  | [], [] => true
  | a :: as, b :: bs => a.same b && Linear.sameAll as bs
  | _, _ => false

end

mutual

theorem Linear.same_iff : (a b : Linear) → (a.same b = true ↔ a = b)
  | .const _, c => by cases c <;> simp [Linear.same]
  | .var _ _, c => by cases c <;> simp [Linear.same]
  | .sum as, c => by cases c <;> simp [Linear.same, Linear.sameAll_iff as]
  | .diff a b, c => by cases c <;> simp [Linear.same, Linear.same_iff a, Linear.same_iff b]
  | .scaled _ a, c => by cases c <;> simp [Linear.same, Linear.same_iff a]
  | .weighted a _, c => by cases c <;> simp [Linear.same, Linear.same_iff a]
  | .sumOver _ a, c => by cases c <;> simp [Linear.same, Linear.same_iff a]
  | .abs a, c => by cases c <;> simp [Linear.same, Linear.same_iff a]

theorem Linear.sameAll_iff : (as bs : List Linear) → (Linear.sameAll as bs = true ↔ as = bs)
  | [], bs => by cases bs <;> simp [Linear.sameAll]
  | a :: as, bs => by
    cases bs <;> simp [Linear.sameAll, Linear.same_iff a, Linear.sameAll_iff as]

end

instance : DecidableEq Linear := fun a b => decidable_of_iff _ (Linear.same_iff a b)

end RoundRobin.Zimpl
