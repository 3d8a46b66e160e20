import RoundRobin.Zimpl.Linear

/-! Zimpl programs: declarations of parameters, sets and variables, constraints (`subto` blocks of
rows under `forall` indices), objectives, and the comments and blank lines between them. -/

namespace RoundRobin.Zimpl

inductive Relation where
  | le | ge | eq
deriving DecidableEq, Repr, Inhabited

structure Row where
  lhs : Linear
  relation : Relation
  rhs : Linear
deriving DecidableEq

/-- A named block of rows, all of them under the same `forall` indices. -/
structure Subto where
  name : String
  foralls : List Index
  rows : List Row
deriving DecidableEq

inductive VarDomain where
  | binary | integer | real
deriving DecidableEq, Repr, Inhabited

/-- What the members of a variable are indexed by. -/
inductive VarIndex where
  | scalar
  | over (set : SetTerm)
  | bound (index : Index)
deriving DecidableEq

structure VarDecl where
  name : String
  index : VarIndex
  domain : VarDomain
  lower : Option Arith
  upper : Option Arith
deriving DecidableEq

/-- A variable that is zero or one at each tuple of a set. -/
def VarDecl.binary (name : String) (set : SetTerm) : VarDecl :=
  ⟨name, .over set, .binary, none, none⟩

/-- A continuous variable without upper bound, as every violation is. -/
def VarDecl.nonnegative (name : String) (index : VarIndex) : VarDecl :=
  ⟨name, index, .real, some 0, none⟩

inductive Direction where
  | minimize | maximize
deriving DecidableEq, Repr, Inhabited

structure Objective where
  direction : Direction
  name : String
  terms : List Linear
deriving DecidableEq

inductive Statement where
  | comment (text : String)
  | blank
  | param (name : String) (value : Arith)
  | set (name : String) (value : SetTerm)
  /-- A set of sets, one for each index of the value. -/
  | setFamily (name : String) (value : SetTerm)
  | var (decl : VarDecl)
  | subto (block : Subto)
  | objective (goal : Objective)
deriving DecidableEq

/-- A Zimpl program, in the order in which it is written. -/
abbrev Program := List Statement

namespace Program

def subtos (program : Program) : List Subto :=
  program.filterMap fun
    | .subto block => some block
    | _ => none

def varDecls (program : Program) : List VarDecl :=
  program.filterMap fun
    | .var decl => some decl
    | _ => none

def objectives (program : Program) : List Objective :=
  program.filterMap fun
    | .objective goal => some goal
    | _ => none

def findSubto? (program : Program) (name : String) : Option Subto :=
  program.subtos.find? (·.name == name)

def findVariable? (program : Program) (name : String) : Option VarDecl :=
  program.varDecls.find? (·.name == name)

def findObjective? (program : Program) : Option Objective := program.objectives.head?

@[simp] theorem subtos_append (p q : Program) : subtos (p ++ q) = subtos p ++ subtos q :=
  List.filterMap_append

@[simp] theorem varDecls_append (p q : Program) :
    varDecls (p ++ q) = varDecls p ++ varDecls q :=
  List.filterMap_append

@[simp] theorem objectives_append (p q : Program) :
    objectives (p ++ q) = objectives p ++ objectives q :=
  List.filterMap_append

end Program

end RoundRobin.Zimpl
