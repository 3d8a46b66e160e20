import Mathlib
import RoundRobin.Zimpl.Program

/-! What Zimpl programs mean. Numbers are exact rationals, sets are lists of tuples without repeats,
and a program holds of an assignment of values to its variables. Whatever refers to something that
does not exist has no value, and a row without a value on both sides does not hold. -/

namespace RoundRobin.Zimpl

/-- An element of a set. -/
abbrev Tuple := List Rat

/-- What the names of a program stand for. -/
structure Env where
  /-- The bound symbols, the innermost first. -/
  symbols : List (String × Rat) := []
  params : List (String × Rat) := []
  sets : List (String × List Tuple) := []
  /-- The members of each family of sets, which count from one. -/
  families : List (String × List (List Tuple)) := []
  /-- The subscripts that each variable has values for. -/
  subscripts : List (String × List Tuple) := []

namespace Env

/-- The value of a name; a bound symbol hides a parameter. -/
def value? (env : Env) (name : String) : Option Rat :=
  (env.symbols.lookup name).or (env.params.lookup name)

/-- Binds symbols to the components of a tuple. A symbol that is bound already has to have the
value of its component. -/
def bind? (env : Env) : List String → Tuple → Option Env
  | [], [] => some env
  | symbol :: symbols, value :: values =>
    match env.symbols.lookup symbol with
    | some bound => if bound = value then bind? env symbols values else none
    | none => bind? { env with symbols := (symbol, value) :: env.symbols } symbols values
  | _, _ => none

/-- The member of a family at an index. -/
def member? (env : Env) (family : String) (index : Rat) : Option (List Tuple) :=
  (env.families.lookup family).bind fun members =>
    if index.isInt ∧ 0 < index then members[index.num.toNat - 1]? else none

end Env

/-- The integers between two numbers. -/
def integersBetween (first last : Rat) : List Tuple :=
  (List.range (last.floor - first.ceil + 1).toNat).map
    fun i : Nat => [((first.ceil + i : Int) : Rat)]

/-- All pairs of a tuple of one set and a tuple of another, joined. -/
def joined (a b : List Tuple) : List Tuple := a.flatMap fun left => b.map (left ++ ·)

theorem mem_integersBetween {first last : Rat} {tuple : Tuple} :
    tuple ∈ integersBetween first last ↔ ∃ i : Int, tuple = [(i : Rat)] ∧ first ≤ i ∧ i ≤ last := by
  simp only [integersBetween, List.mem_map, List.mem_range]
  constructor
  · rintro ⟨k, hk, rfl⟩
    refine ⟨first.ceil + k, rfl, Rat.ceil_le_iff.mp (by omega), Rat.le_floor_iff.mp (by omega)⟩
  · rintro ⟨i, rfl, hfirst, hlast⟩
    have h1 : first.ceil ≤ i := Rat.ceil_le_iff.mpr hfirst
    have h2 : i ≤ last.floor := Rat.le_floor_iff.mpr hlast
    refine ⟨(i - first.ceil).toNat, by omega, ?_⟩
    have h3 : first.ceil + ((i - first.ceil).toNat : Int) = i := by omega
    rw [h3]

@[simp] theorem mem_joined {a b : List Tuple} {tuple : Tuple} :
    tuple ∈ joined a b ↔ ∃ left ∈ a, ∃ right ∈ b, left ++ right = tuple := by
  simp [joined]

/-- The sublists of a length, in the order of their members. -/
def sublistsOf : Nat → List α → List (List α)
  | 0, _ => [[]]
  | _ + 1, [] => []
  | size + 1, a :: as => (sublistsOf size as).map (a :: ·) ++ sublistsOf (size + 1) as

mutual

def Arith.value? (env : Env) : Arith → Option Rat
  | .int value => some value
  | .name symbol => env.value? symbol
  | .add a b => do return (← a.value? env) + (← b.value? env)
  | .sub a b => do return (← a.value? env) - (← b.value? env)
  | .mul a b => do return (← a.value? env) * (← b.value? env)
  | .div a b => do
    let divisor ← b.value? env
    if divisor = 0 then none else return (← a.value? env) / divisor
  | .floor a => do return (← a.value? env).floor
  | .min a b => do return min (← a.value? env) (← b.value? env)
  | .card set => do return ((← set.tuples? env).length : Nat)

def Arith.values? (env : Env) : List Arith → Option Tuple
  | [] => some []
  | a :: as => do return (← a.value? env) :: (← Arith.values? env as)

/-- The tuples of a set. A family is no set of tuples. -/
def SetTerm.tuples? (env : Env) : SetTerm → Option (List Tuple)
  | .name set => env.sets.lookup set
  | .member family index => do env.member? family (← index.value? env)
  | .range first last => do return integersBetween (← first.value? env) (← last.value? env)
  | .list elements => do return ((← Arith.values? env elements).map fun value => [value]).eraseDups
  | .product factors => SetTerm.productTuples? env factors
  | .minus a b => do
    let taken ← b.tuples? env
    return (← a.tuples? env).filter (· ∉ taken)
  | .builder index => do return (← index.select? env).map (·.1)
  | .subsets _ _ => none
  | .indexset family => do
    return (← env.families.lookup family).zipIdx.map fun (_, place) => [((place + 1 : Nat) : Rat)]

def SetTerm.productTuples? (env : Env) : List SetTerm → Option (List Tuple)
  | [] => some [[]]
  | s :: ss => do return joined (← s.tuples? env) (← SetTerm.productTuples? env ss)

/-- The tuples that an index runs over, each with what its names stand for there. -/
def Index.select? (env : Env) : Index → Option (List (Tuple × Env))
  | .mk symbols domain condition => do
    let tuples ← domain.tuples? env
    if tuples.any (·.length ≠ symbols.length) then none
    let bound := tuples.filterMap fun tuple => (env.bind? symbols tuple).map (tuple, ·)
    let chosen ← bound.mapM fun (tuple, inner) =>
      (condition.holds? inner).map fun holds => if holds then some (tuple, inner) else none
    return chosen.filterMap id

def Condition.holds? (env : Env) : Condition → Option Bool
  | .always => some true
  | .ne a b => do return (← a.value? env) ≠ (← b.value? env)
  | .lt a b => do return (← a.value? env) < (← b.value? env)

end

/-- What the names stand for at each tuple that an index runs over. -/
def Index.expand? (env : Env) (index : Index) : Option (List Env) :=
  (index.select? env).map fun selected => selected.map (·.2)

/-- The same for each index inside the ones before it. -/
def Index.expandAll? (env : Env) : List Index → Option (List Env)
  | [] => some [env]
  | index :: indices => do
    let inner ← (← index.expand? env).mapM fun env => Index.expandAll? env indices
    return inner.flatten

/-- The members of a family of sets. -/
def SetTerm.members? (env : Env) : SetTerm → Option (List (List Tuple))
  | .subsets set size => do return sublistsOf size (← set.tuples? env)
  | _ => none

/-- A value for each variable and subscripts. -/
abbrev Assignment := String → Tuple → Rat

mutual

/-- The value of a term. A variable has values for its subscripts only. -/
def Linear.value? (env : Env) (values : Assignment) : Linear → Option Rat
  | .const value => value.value? env
  | .var name subscripts => do
    let subscripts ← Arith.values? env subscripts
    if subscripts ∈ (env.subscripts.lookup name).getD [] then return values name subscripts
    else none
  | .sum terms => Linear.sumOf? env values terms
  | .diff a b => do return (← a.value? env values) - (← b.value? env values)
  | .scaled factor term => do return (← factor.value? env) * (← term.value? env values)
  | .weighted term weight => do return (← term.value? env values) * weight
  | .sumOver index body => do
    let terms ← (← index.expand? env).mapM fun env => body.value? env values
    return terms.sum
  | .abs term => do return (← term.value? env values).abs

def Linear.sumOf? (env : Env) (values : Assignment) : List Linear → Option Rat
  | [] => some 0
  | term :: terms => do return (← term.value? env values) + (← Linear.sumOf? env values terms)

end

/-- The value of an objective. -/
def Objective.value? (env : Env) (values : Assignment) (goal : Objective) : Option Rat :=
  Linear.sumOf? env values goal.terms

def Relation.Holds (a b : Rat) : Relation → Prop
  | .le => a ≤ b
  | .ge => b ≤ a
  | .eq => a = b

instance (a b : Rat) (relation : Relation) : Decidable (relation.Holds a b) := by
  cases relation <;> unfold Relation.Holds <;> infer_instance

def Row.Holds (env : Env) (values : Assignment) (row : Row) : Prop :=
  ∃ a ∈ row.lhs.value? env values, ∃ b ∈ row.rhs.value? env values, row.relation.Holds a b

instance (env : Env) (values : Assignment) (row : Row) : Decidable (row.Holds env values) := by
  unfold Row.Holds
  infer_instance

/-- All rows of a block hold at all tuples of its indices. -/
def Subto.Holds (env : Env) (values : Assignment) (block : Subto) : Prop :=
  ∃ envs ∈ Index.expandAll? env block.foralls, ∀ env ∈ envs, ∀ row ∈ block.rows,
    row.Holds env values

instance (env : Env) (values : Assignment) (block : Subto) :
    Decidable (block.Holds env values) := by
  unfold Subto.Holds
  infer_instance

/-- The subscripts of a variable, each with what the symbols of its index stand for there. -/
def VarIndex.select? (env : Env) : VarIndex → Option (List (Tuple × Env))
  | .scalar => some [([], env)]
  | .over set => (set.tuples? env).map fun tuples => tuples.map (·, env)
  | .bound index => index.select? env

def VarDomain.Admits (value : Rat) : VarDomain → Prop
  | .binary => value = 0 ∨ value = 1
  | .integer => value.isInt
  | .real => True

instance (value : Rat) (domain : VarDomain) : Decidable (domain.Admits value) := by
  cases domain <;> unfold VarDomain.Admits <;> infer_instance

/-- A value lies within the bounds of a variable. Without a lower bound, that is zero. -/
def VarDecl.Admits (env : Env) (value : Rat) (decl : VarDecl) : Prop :=
  decl.domain.Admits value
    ∧ (∃ lower ∈ (decl.lower.getD 0).value? env, lower ≤ value)
    ∧ ∀ bound ∈ decl.upper, ∃ upper ∈ bound.value? env, value ≤ upper

instance (env : Env) (value : Rat) (decl : VarDecl) : Decidable (decl.Admits env value) := by
  unfold VarDecl.Admits
  infer_instance

/-- All values of a variable are admitted. -/
def VarDecl.Holds (env : Env) (values : Assignment) (decl : VarDecl) : Prop :=
  ∃ selected ∈ decl.index.select? env, ∀ place ∈ selected,
    decl.Admits place.2 (values decl.name place.1)

instance (env : Env) (values : Assignment) (decl : VarDecl) :
    Decidable (decl.Holds env values) := by
  unfold VarDecl.Holds
  infer_instance

/-- What the names stand for behind a statement. -/
def Statement.declare? (env : Env) : Statement → Option Env
  | .param name value => do
    return { env with params := (name, ← value.value? env) :: env.params }
  | .set name value => do return { env with sets := (name, ← value.tuples? env) :: env.sets }
  | .setFamily name value => do
    return { env with families := (name, ← value.members? env) :: env.families }
  | .var decl => do
    let subscripts := (← decl.index.select? env).map (·.1)
    return { env with subscripts := (decl.name, subscripts) :: env.subscripts }
  | .comment _ | .blank | .subto _ | .objective _ => some env

namespace Program

/-- What the names of a program stand for, each declared before it is used. -/
def env? (program : Program) : Option Env := program.foldlM Statement.declare? {}

/-- An assignment keeps the bounds of all variables and all constraints. -/
def Holds (program : Program) (values : Assignment) : Prop :=
  ∃ env ∈ program.env?, (∀ decl ∈ program.varDecls, decl.Holds env values)
    ∧ ∀ block ∈ program.subtos, block.Holds env values

instance (program : Program) (values : Assignment) : Decidable (program.Holds values) := by
  unfold Holds
  infer_instance

/-- The value of the first objective under an assignment, which is zero if there is none. -/
def objectiveValue? (program : Program) (values : Assignment) : Option Rat := do
  let env ← program.env?
  match program.findObjective? with
  | some goal => goal.value? env values
  | none => return 0

end Program

end RoundRobin.Zimpl
