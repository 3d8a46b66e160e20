import RoundRobin.IdSet

/-! Terms of the Zimpl language that hold no model variable: arithmetic between constants,
parameters and bound symbols, sets, and the indices that bind symbols to the tuples of a set.
Equality of terms is decidable. -/

namespace RoundRobin.Zimpl

mutual

/-- Arithmetic between constants, parameters and bound symbols. -/
inductive Arith where
  | int (value : Int)
  | name (symbol : String)
  | add (a b : Arith)
  | sub (a b : Arith)
  | mul (a b : Arith)
  | div (a b : Arith)
  | floor (a : Arith)
  | min (a b : Arith)
  | card (set : SetTerm)

inductive SetTerm where
  | name (set : String)
  /-- One of a family of sets. -/
  | member (family : String) (index : Arith)
  /-- The integers from `first` to `last`. -/
  | range (first last : Arith)
  | list (elements : List Arith)
  | product (factors : List SetTerm)
  | minus (a b : SetTerm)
  /-- The tuples that an index runs over. -/
  | builder (index : Index)
  /-- The subsets of one size, as a family of sets. -/
  | subsets (set : SetTerm) (size : Nat)
  /-- The indices of a family of sets. -/
  | indexset (family : String)

/-- Symbols bound to the components of each tuple of a domain that meets a condition. -/
inductive Index where
  | mk (symbols : List String) (domain : SetTerm) (condition : Condition)

/-- What an index asks of a tuple. -/
inductive Condition where
  | always
  | ne (a b : Arith)
  | lt (a b : Arith)

end

instance : Inhabited Arith := ⟨.int 0⟩
instance : Inhabited SetTerm := ⟨.list []⟩

instance (n : Nat) : OfNat Arith n := ⟨.int n⟩
instance : Coe String Arith := ⟨.name⟩
instance : Coe String SetTerm := ⟨.name⟩
instance : Add Arith := ⟨.add⟩
instance : Sub Arith := ⟨.sub⟩
instance : Mul Arith := ⟨.mul⟩
instance : Div Arith := ⟨.div⟩

/-- The literal set of some ids, ascending and each once. -/
def SetTerm.ids (ids : List Int) : SetTerm :=
  .list ((ascending ids).map .int)

/-- The set of one bound symbol. -/
def SetTerm.single (symbol : String) : SetTerm := .list [.name symbol]

/-- An index over a whole set. -/
def Index.over (symbols : List String) (domain : SetTerm) : Index := .mk symbols domain .always

mutual

/-- Whether two terms are the same tree. -/
def Arith.same : Arith → Arith → Bool
  | .int a, .int b => a == b
  | .name a, .name b => a == b
  | .add a b, .add c d => a.same c && b.same d
  | .sub a b, .sub c d => a.same c && b.same d
  | .mul a b, .mul c d => a.same c && b.same d
  | .div a b, .div c d => a.same c && b.same d
  | .floor a, .floor b => a.same b
  | .min a b, .min c d => a.same c && b.same d
  | .card s, .card t => s.same t
  | _, _ => false

def Arith.sameAll : List Arith → List Arith → Bool
  | [], [] => true
  | a :: as, b :: bs => a.same b && Arith.sameAll as bs
  | _, _ => false

def SetTerm.same : SetTerm → SetTerm → Bool
  | .name a, .name b => a == b
  | .member f a, .member g b => f == g && a.same b
  | .range a b, .range c d => a.same c && b.same d
  | .list as, .list bs => Arith.sameAll as bs
  | .product ss, .product ts => SetTerm.sameAll ss ts
  | .minus a b, .minus c d => a.same c && b.same d
  | .builder i, .builder j => i.same j
  | .subsets s k, .subsets t l => s.same t && k == l
  | .indexset a, .indexset b => a == b
  | _, _ => false

def SetTerm.sameAll : List SetTerm → List SetTerm → Bool
  | [], [] => true
  | s :: ss, t :: ts => s.same t && SetTerm.sameAll ss ts
  | _, _ => false

def Index.same : Index → Index → Bool
  | .mk xs s c, .mk ys t d => xs == ys && s.same t && c.same d

def Condition.same : Condition → Condition → Bool
  | .always, .always => true
  | .ne a b, .ne c d => a.same c && b.same d
  | .lt a b, .lt c d => a.same c && b.same d
  | _, _ => false

end

mutual

theorem Arith.same_iff : (a b : Arith) → (a.same b = true ↔ a = b)
  | .int _, b => by cases b <;> simp [Arith.same]
  | .name _, b => by cases b <;> simp [Arith.same]
  | .add a b, c => by cases c <;> simp [Arith.same, Arith.same_iff a, Arith.same_iff b]
  | .sub a b, c => by cases c <;> simp [Arith.same, Arith.same_iff a, Arith.same_iff b]
  | .mul a b, c => by cases c <;> simp [Arith.same, Arith.same_iff a, Arith.same_iff b]
  | .div a b, c => by cases c <;> simp [Arith.same, Arith.same_iff a, Arith.same_iff b]
  | .floor a, c => by cases c <;> simp [Arith.same, Arith.same_iff a]
  | .min a b, c => by cases c <;> simp [Arith.same, Arith.same_iff a, Arith.same_iff b]
  | .card s, c => by cases c <;> simp [Arith.same, SetTerm.same_iff s]

theorem Arith.sameAll_iff : (as bs : List Arith) → (Arith.sameAll as bs = true ↔ as = bs)
  | [], bs => by cases bs <;> simp [Arith.sameAll]
  | a :: as, bs => by cases bs <;> simp [Arith.sameAll, Arith.same_iff a, Arith.sameAll_iff as]

theorem SetTerm.same_iff : (s t : SetTerm) → (s.same t = true ↔ s = t)
  | .name _, t => by cases t <;> simp [SetTerm.same]
  | .member _ a, t => by cases t <;> simp [SetTerm.same, Arith.same_iff a]
  | .range a b, t => by cases t <;> simp [SetTerm.same, Arith.same_iff a, Arith.same_iff b]
  | .list as, t => by cases t <;> simp [SetTerm.same, Arith.sameAll_iff as]
  | .product ss, t => by cases t <;> simp [SetTerm.same, SetTerm.sameAll_iff ss]
  | .minus a b, t => by cases t <;> simp [SetTerm.same, SetTerm.same_iff a, SetTerm.same_iff b]
  | .builder i, t => by cases t <;> simp [SetTerm.same, Index.same_iff i]
  | .subsets s _, t => by cases t <;> simp [SetTerm.same, SetTerm.same_iff s]
  | .indexset _, t => by cases t <;> simp [SetTerm.same]

theorem SetTerm.sameAll_iff : (ss ts : List SetTerm) → (SetTerm.sameAll ss ts = true ↔ ss = ts)
  | [], ts => by cases ts <;> simp [SetTerm.sameAll]
  | s :: ss, ts => by
    cases ts <;> simp [SetTerm.sameAll, SetTerm.same_iff s, SetTerm.sameAll_iff ss]

theorem Index.same_iff : (i j : Index) → (i.same j = true ↔ i = j)
  | .mk _ s c, .mk _ _ _ => by
    simp [Index.same, SetTerm.same_iff s, Condition.same_iff c, and_assoc]

theorem Condition.same_iff : (c d : Condition) → (c.same d = true ↔ c = d)
  | .always, d => by cases d <;> simp [Condition.same]
  | .ne a b, d => by cases d <;> simp [Condition.same, Arith.same_iff a, Arith.same_iff b]
  | .lt a b, d => by cases d <;> simp [Condition.same, Arith.same_iff a, Arith.same_iff b]

end

instance : DecidableEq Arith := fun a b => decidable_of_iff _ (Arith.same_iff a b)
instance : DecidableEq SetTerm := fun s t => decidable_of_iff _ (SetTerm.same_iff s t)
instance : DecidableEq Index := fun i j => decidable_of_iff _ (Index.same_iff i j)
instance : DecidableEq Condition := fun c d => decidable_of_iff _ (Condition.same_iff c d)

end RoundRobin.Zimpl
