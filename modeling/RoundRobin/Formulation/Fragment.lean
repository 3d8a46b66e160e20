import RoundRobin.Formulation.Numbering
import RoundRobin.Formulation.Symbols

/-! Fragments: what one rule adds to a program. A hard rule adds constraints. A soft rule also adds
a violation, which relaxes its rows and is charged its penalty in the objective. -/

namespace RoundRobin

open Zimpl

structure Fragment where
  declarations : List Statement := []
  subtos : List Subto := []
  /-- The terms that the rule adds to the objective. -/
  charges : List Linear := []
deriving DecidableEq

namespace Fragment

def append (a b : Fragment) : Fragment :=
  ⟨a.declarations ++ b.declarations, a.subtos ++ b.subtos, a.charges ++ b.charges⟩

instance : Append Fragment := ⟨append⟩

/-- Puts declarations in front. -/
def declare (declarations : List Statement) (fragment : Fragment) : Fragment :=
  { fragment with declarations := declarations ++ fragment.declarations }

/-- The statements of a fragment, without its charges. -/
def statements (fragment : Fragment) : List Statement :=
  fragment.declarations ++ fragment.subtos.map .subto

end Fragment

/-- A variable by which the rows of a rule may be violated. -/
structure Violation where
  declarations : List Statement
  /-- How it stands in a row. -/
  inRow : Linear
  /-- All of it, as it is charged. -/
  total : Linear

namespace Violation

/-- A scalar of the rule's own. -/
def scalar (name : String) : Violation :=
  ⟨[.var (.nonnegative name .scalar)], .var name [], .var name []⟩

/-- The member at a place of an array that the soft rules of a kind share. -/
def member (array : String) (place : Nat) : Violation :=
  ⟨[], .var array [.int place], .var array [.int place]⟩

/-- An array of the rule's own, with a member for each tuple of an index; the symbols of the index
are bound where a row uses it. -/
def array (name : String) (declared : VarIndex) (symbols : List String) (index : Index) :
    Violation :=
  let term := Linear.var name (symbols.map .name)
  ⟨[.var (.nonnegative name declared)], term, .sumOver index term⟩

end Violation

/-- The constraints of a rule, of its strength. Those of a soft rule are relaxed by the violation,
which is declared before them. -/
def Strength.relax (strength : Strength) (violation : Violation)
    (subtos : Option Linear → List Subto) : Fragment :=
  match strength with
  | .hard => { subtos := subtos none }
  | .soft penalty =>
    { declarations := violation.declarations
      subtos := subtos (some violation.inRow)
      charges := [.weighted violation.total penalty] }

/-- An upper bound, to which a violation is added. -/
def atMost (bound : Nat) : Option Linear → Linear
  | none => .const (.int bound)
  | some violation => .plus [.const (.int bound), violation]

/-- A lower bound, from which a violation is taken away. -/
def atLeast (bound : Nat) : Option Linear → Linear
  | none => .const (.int bound)
  | some violation => .diff (.const (.int bound)) violation

end RoundRobin
