import Mathlib
import RoundRobin.Zimpl.Program

/-! Scopes of Zimpl programs. A statement may use the names that the statements before it declare
and the symbols that are bound around a term; a variable takes as many subscripts as the index of
its declaration has dimensions. A program is well scoped if all its statements keep to this and no
name is declared twice. -/

namespace RoundRobin.Zimpl

/-- What a name is declared as. -/
inductive Entity where
  | param
  /-- A set of tuples of a length. -/
  | set (dim : Nat)
  /-- A family of such sets. -/
  | family (dim : Nat)
  /-- A variable with a number of subscripts. -/
  | variable (dim : Nat)
deriving DecidableEq, Repr

/-- What is in scope at a point of a program. -/
structure Context where
  /-- What each name is declared as, the earliest first. -/
  declared : List (String × Entity) := []
  /-- The bound symbols. -/
  symbols : List String := []
deriving Inhabited

namespace Context

def entity? (context : Context) (name : String) : Option Entity := context.declared.lookup name

/-- The dimension of a set. -/
def setDim? (context : Context) (name : String) : Option Nat :=
  match context.entity? name with
  | some (.set dim) => some dim
  | _ => none

/-- The dimension of the members of a family. -/
def familyDim? (context : Context) (name : String) : Option Nat :=
  match context.entity? name with
  | some (.family dim) => some dim
  | _ => none

/-- A symbol stands for a number if it is bound or is a parameter. -/
def admits (context : Context) (symbol : String) : Bool :=
  symbol ∈ context.symbols || context.entity? symbol = some .param

def bind (context : Context) (symbols : List String) : Context :=
  { context with symbols := symbols ++ context.symbols }

/-- The context behind further declarations. -/
def add (context : Context) (entities : List (String × Entity)) : Context :=
  { context with declared := context.declared ++ entities }

end Context

/-- The symbols that an index binds. -/
def Index.symbols : Index → List String
  | .mk symbols _ _ => symbols

mutual

/-- Whether all that a term uses is in scope. -/
def Arith.scoped (context : Context) : Arith → Bool
  | .int _ => true
  | .name symbol => context.admits symbol
  | .add a b | .sub a b | .mul a b | .div a b | .min a b => a.scoped context && b.scoped context
  | .floor a => a.scoped context
  | .card set => (set.dim? context).isSome

def Arith.allScoped (context : Context) : List Arith → Bool
  | [] => true
  | a :: as => a.scoped context && Arith.allScoped context as

/-- The length of the tuples of a set, if all that it uses is in scope. -/
def SetTerm.dim? (context : Context) : SetTerm → Option Nat
  | .name set => context.setDim? set
  | .member family index => if index.scoped context then context.familyDim? family else none
  | .range first last => if first.scoped context && last.scoped context then some 1 else none
  | .list elements => if Arith.allScoped context elements then some 1 else none
  | .product factors => SetTerm.productDim? context factors
  | .minus a b => do
    let dim ← a.dim? context
    if b.dim? context = some dim then some dim else none
  | .builder index => if index.scoped context then some index.symbols.length else none
  | .subsets _ _ => none
  | .indexset family => (context.familyDim? family).map fun _ => 1

def SetTerm.productDim? (context : Context) : List SetTerm → Option Nat
  | [] => some 0
  | s :: ss => do return (← s.dim? context) + (← SetTerm.productDim? context ss)

/-- An index binds a symbol to each component of its tuples, for its condition too. -/
def Index.scoped (context : Context) : Index → Bool
  | .mk symbols domain condition =>
    domain.dim? context = some symbols.length && condition.scoped (context.bind symbols)

def Condition.scoped (context : Context) : Condition → Bool
  | .always => true
  | .ne a b | .lt a b => a.scoped context && b.scoped context

end

/-- The length of the tuples of the members of a family. -/
def SetTerm.memberDim? (context : Context) : SetTerm → Option Nat
  | .subsets set _ => set.dim? context
  | _ => none

mutual

def Linear.scoped (context : Context) : Linear → Bool
  | .const value => value.scoped context
  | .var name subscripts =>
    context.entity? name = some (.variable subscripts.length) && Arith.allScoped context subscripts
  | .sum terms => Linear.allScoped context terms
  | .diff a b => a.scoped context && b.scoped context
  | .scaled factor term => factor.scoped context && term.scoped context
  | .weighted term _ => term.scoped context
  | .sumOver index body => index.scoped context && body.scoped (context.bind index.symbols)
  | .abs term => term.scoped context

def Linear.allScoped (context : Context) : List Linear → Bool
  | [] => true
  | term :: terms => term.scoped context && Linear.allScoped context terms

end

def Row.scoped (context : Context) (row : Row) : Bool :=
  row.lhs.scoped context && row.rhs.scoped context

/-- Whether rows are scoped under indices, each of which is inside the ones before it. -/
def Row.scopedUnder (context : Context) (rows : List Row) : List Index → Bool
  | [] => rows.all (·.scoped context)
  | index :: indices =>
    index.scoped context && Row.scopedUnder (context.bind index.symbols) rows indices

def Subto.scoped (context : Context) (block : Subto) : Bool :=
  Row.scopedUnder context block.rows block.foralls

/-- How many subscripts a variable takes, if its index is scoped. -/
def VarIndex.dim? (context : Context) : VarIndex → Option Nat
  | .scalar => some 0
  | .over set => set.dim? context
  | .bound index => if index.scoped context then some index.symbols.length else none

/-- The symbols that are bound in the bounds of a variable. -/
def VarIndex.symbols : VarIndex → List String
  | .scalar | .over _ => []
  | .bound index => index.symbols

/-- How many subscripts a variable takes, if its index and its bounds are scoped. -/
def VarDecl.dim? (context : Context) (decl : VarDecl) : Option Nat := do
  let dim ← decl.index.dim? context
  let inner := context.bind decl.index.symbols
  if decl.lower.all (·.scoped inner) && decl.upper.all (·.scoped inner) then some dim else none

/-- What a statement declares, if all that it uses is in scope. -/
def Statement.declared? (context : Context) : Statement → Option (List (String × Entity))
  | .param name value => if value.scoped context then some [(name, .param)] else none
  | .set name value => (value.dim? context).map fun dim => [(name, .set dim)]
  | .setFamily name value => (value.memberDim? context).map fun dim => [(name, .family dim)]
  | .var decl => (decl.dim? context).map fun dim => [(decl.name, .variable dim)]
  | .subto block => if block.scoped context then some [] else none
  | .objective goal => if Linear.allScoped context goal.terms then some [] else none
  | .comment _ | .blank => some []

namespace Program

/-- What the statements of a program declare, if each uses only what is declared before it. -/
def declared? (context : Context) : Program → Option (List (String × Entity))
  | [] => some []
  | statement :: program => do
    let entities ← statement.declared? context
    return entities ++ (← declared? (context.add entities) program)

/-- Each statement uses only what is declared before it and bound around it, and no name is declared
twice. -/
def WellScoped (program : Program) : Prop :=
  ∃ entities ∈ program.declared? {}, (entities.map Prod.fst).Nodup

instance (program : Program) : Decidable program.WellScoped := by
  unfold WellScoped
  infer_instance

end Program

namespace Context

variable {context : Context} {name : String} {entity : Entity}
    {entities more : List (String × Entity)}

@[simp] theorem add_nil (context : Context) : context.add [] = context := by simp [add]

@[simp] theorem entity?_bind (context : Context) (symbols : List String) (name : String) :
    (context.bind symbols).entity? name = context.entity? name := rfl

@[simp] theorem symbols_bind (context : Context) (symbols : List String) :
    (context.bind symbols).symbols = symbols ++ context.symbols := rfl

/-- Some names are in scope, each as what it is said to be. -/
def Declares (context : Context) (entities : List (String × Entity)) : Prop :=
  ∀ pair ∈ entities, context.entity? pair.1 = some pair.2

theorem declares_nil (context : Context) : context.Declares [] := fun _ h => nomatch h

theorem Declares.entity? (h : context.Declares entities) (hmem : (name, entity) ∈ entities) :
    context.entity? name = some entity :=
  h _ hmem

theorem Declares.mono (h : context.Declares entities) (hsub : more ⊆ entities) :
    context.Declares more := fun pair hpair => h pair (hsub hpair)

/-- What is in scope stays in scope: the earliest declaration of a name counts. -/
theorem Declares.add (h : context.Declares entities) (more : List (String × Entity)) :
    (context.add more).Declares entities := fun pair hpair => by
  have hpair := h pair hpair
  rw [Context.entity?] at hpair
  rw [Context.entity?, Context.add, List.lookup_append, hpair, Option.some_or]

theorem lookup_of_mem : {entities : List (String × Entity)} → (entities.map Prod.fst).Nodup →
    (name, entity) ∈ entities → entities.lookup name = some entity
  | (first, found) :: entities, hnodup, hmem => by
    obtain ⟨hfirst, hnodup⟩ := List.nodup_cons.mp hnodup
    rcases List.mem_cons.mp hmem with heq | hrest
    · obtain ⟨rfl, rfl⟩ := Prod.mk.inj heq
      exact List.lookup_cons_self
    · have hname : name ∈ entities.map Prod.fst := List.mem_map_of_mem hrest
      rw [List.lookup_cons, beq_false_of_ne (ne_of_mem_of_not_mem hname hfirst)]
      exact lookup_of_mem hnodup hrest

/-- Where no name is declared twice, all declarations count. -/
theorem declares_declared (hnodup : (context.declared.map Prod.fst).Nodup) :
    context.Declares context.declared := fun _ hpair => lookup_of_mem hnodup hpair

/-- Further declarations of which none declares a name that is declared already. -/
def Fresh (context : Context) (entities : List (String × Entity)) : Prop :=
  ((context.add entities).declared.map Prod.fst).Nodup

theorem Fresh.declares (h : context.Fresh entities) : (context.add entities).Declares entities :=
  (declares_declared h).mono (List.subset_append_right _ _)

theorem add_append (context : Context) (entities more : List (String × Entity)) :
    context.add (entities ++ more) = (context.add entities).add more := by
  simp [add]

theorem Fresh.rest (h : context.Fresh (entities ++ more)) : (context.add entities).Fresh more := by
  rwa [Fresh, add_append] at h

theorem Fresh.first (h : context.Fresh (entities ++ more)) : context.Fresh entities := by
  rw [Fresh, add_append] at h
  exact h.sublist ((List.sublist_append_left _ _).map _)

theorem Fresh.head {pair : String × Entity} (h : context.Fresh (pair :: entities)) :
    context.Fresh [pair] :=
  Fresh.first h

end Context

section Scoped

variable {context : Context}

attribute [simp] Context.setDim? Context.familyDim? Context.admits Arith.scoped SetTerm.dim?
  SetTerm.productDim? Index.scoped Condition.scoped SetTerm.memberDim? Linear.scoped Row.scoped
  Row.scopedUnder Subto.scoped VarIndex.dim? VarIndex.symbols VarDecl.dim? Statement.declared?

@[simp] theorem Index.symbols_mk (symbols : List String) (domain : SetTerm)
    (condition : Condition) : (Index.mk symbols domain condition).symbols = symbols := rfl

@[simp] theorem Index.symbols_over (symbols : List String) (domain : SetTerm) :
    (Index.over symbols domain).symbols = symbols := rfl

@[simp] theorem Index.scoped_over (symbols : List String) (domain : SetTerm) :
    (Index.over symbols domain).scoped context =
      decide (domain.dim? context = some symbols.length) := by
  simp [Index.over]

@[simp] theorem Arith.scoped_ofNat (n : Nat) :
    (no_index (OfNat.ofNat n) : Arith).scoped context = true := rfl

@[simp] theorem Arith.scoped_add (a b : Arith) :
    (a + b).scoped context = (a.scoped context && b.scoped context) := rfl

@[simp] theorem Arith.scoped_sub (a b : Arith) :
    (a - b).scoped context = (a.scoped context && b.scoped context) := rfl

@[simp] theorem Arith.scoped_mul (a b : Arith) :
    (a * b).scoped context = (a.scoped context && b.scoped context) := rfl

@[simp] theorem Arith.scoped_div (a b : Arith) :
    (a / b).scoped context = (a.scoped context && b.scoped context) := rfl

@[simp] theorem Arith.allScoped_eq_all (terms : List Arith) :
    Arith.allScoped context terms = terms.all (·.scoped context) := by
  induction terms with
  | nil => rfl
  | cons term terms ih => rw [Arith.allScoped, ih, List.all_cons]

@[simp] theorem Linear.allScoped_eq_all (terms : List Linear) :
    Linear.allScoped context terms = terms.all (·.scoped context) := by
  induction terms with
  | nil => rfl
  | cons term terms ih => rw [Linear.allScoped, ih, List.all_cons]

@[simp] theorem SetTerm.dim?_ids (ids : List Int) :
    (SetTerm.ids ids).dim? context = some 1 := by
  simp [SetTerm.ids]

@[simp] theorem SetTerm.dim?_single (symbol : String) :
    (SetTerm.single symbol).dim? context = if context.admits symbol then some 1 else none := by
  simp [SetTerm.single]

theorem Linear.all_scoped_summands (term : Linear) :
    term.summands.all (·.scoped context) = term.scoped context := by
  cases term with
  | sum terms => rw [Linear.summands, Linear.scoped, Linear.allScoped_eq_all]
  | _ => exact Bool.and_true _

@[simp] theorem Linear.scoped_plus (terms : List Linear) :
    (Linear.plus terms).scoped context = terms.all (·.scoped context) := by
  have hall : (terms.flatMap Linear.summands).all (·.scoped context) =
      terms.all (·.scoped context) := by
    rw [List.all_flatMap]
    simp only [Linear.all_scoped_summands]
  rw [← hall, Linear.plus]
  split
  · rename_i hone
    rw [hone, List.all_cons, List.all_nil, Bool.and_true]
  · rw [Linear.scoped, Linear.allScoped_eq_all]

end Scoped

namespace Program

theorem declared?_step {context : Context} {statement : Statement} {p : Program}
    {first second : List (String × Entity)} (hstatement : statement.declared? context = some first)
    (hp : declared? (context.add first) p = some second) :
    declared? context (statement :: p) = some (first ++ second) := by
  rw [declared?, hstatement, Option.bind_eq_bind, Option.bind_some, hp]
  rfl

theorem declared?_cons {context : Context} {statement : Statement} {p : Program}
    {pair : String × Entity} {entities : List (String × Entity)}
    (hstatement : statement.declared? context = some [pair])
    (hp : declared? (context.add [pair]) p = some entities) :
    declared? context (statement :: p) = some (pair :: entities) :=
  declared?_step hstatement hp

theorem declared?_quiet {context : Context} {statement : Statement} {p : Program}
    {entities : List (String × Entity)} (hstatement : statement.declared? context = some [])
    (hp : declared? context p = some entities) :
    declared? context (statement :: p) = some entities :=
  declared?_step hstatement (by rwa [Context.add_nil])

theorem declared?_append {context : Context} {p q : Program} {first second : List (String × Entity)}
    (hp : declared? context p = some first) (hq : declared? (context.add first) q = some second) :
    declared? context (p ++ q) = some (first ++ second) := by
  induction p generalizing context first with
  | nil =>
    obtain rfl : [] = first := Option.some.inj hp
    rw [Context.add_nil] at hq
    exact hq
  | cons statement p ih =>
    obtain ⟨entities, hstatement, hp⟩ := Option.bind_eq_some_iff.mp hp
    obtain ⟨rest, hrest, hfirst⟩ := Option.bind_eq_some_iff.mp hp
    obtain rfl : entities ++ rest = first := Option.some.inj hfirst
    rw [Context.add_append] at hq
    rw [List.append_assoc]
    exact declared?_step hstatement (ih hrest hq)

theorem declared?_append_nil {context : Context} {p q : Program} {entities : List (String × Entity)}
    (hp : declared? context p = some []) (hq : declared? context q = some entities) :
    declared? context (p ++ q) = some entities :=
  declared?_append hp (by rwa [Context.add_nil])

theorem declared?_append_quiet {context : Context} {p q : Program}
    {entities : List (String × Entity)}
    (hp : declared? context p = some entities) (hq : declared? (context.add entities) q = some []) :
    declared? context (p ++ q) = some entities := by
  rw [declared?_append hp hq, List.append_nil]

theorem declared?_silent {context : Context} :
    {p : Program} → (∀ statement ∈ p, statement.declared? context = some []) →
      declared? context p = some []
  | [], _ => rfl
  | statement :: p, h => by
    obtain ⟨hstatement, hp⟩ := List.forall_mem_cons.mp h
    exact declared?_quiet hstatement (declared?_silent hp)

/-- Parts that use what is declared before all of them, and each declare names of their own. -/
theorem declared?_flatMap {part : α → Program} {base : List (String × Entity)}
    {entities : α → List (String × Entity)} :
    {items : List α} → {context : Context} → context.Declares base →
      context.Fresh (items.flatMap entities) →
      (∀ item ∈ items, ∀ context : Context, context.Declares base → context.Fresh (entities item) →
        declared? context (part item) = some (entities item)) →
      declared? context (items.flatMap part) = some (items.flatMap entities)
  | [], _, _, _, _ => rfl
  | item :: items, context, hbase, hfresh, hpart => by
    obtain ⟨hitem, hitems⟩ := List.forall_mem_cons.mp hpart
    rw [List.flatMap_cons] at hfresh
    exact declared?_append (hitem context hbase hfresh.first)
      (declared?_flatMap (hbase.add _) hfresh.rest hitems)

end Program

end RoundRobin.Zimpl
