import RoundRobin.Proofs.Meaning.Games
import RoundRobin.Proofs.Zimpl.Blocks

/-! The rows of a rule and their violation. A hard rule's rows stand as they are; those of a soft
rule give way by the value of its violation, whose whole is what its charge counts. -/

namespace RoundRobin

open Zimpl

/-- The violation in the rows of a rule of some strength. -/
def Strength.inRow? (strength : Strength) (violation : Violation) : Option Linear :=
  match strength with
  | .hard => none
  | .soft _ => some violation.inRow

theorem Strength.subtos_relax (strength : Strength) (violation : Violation)
    (subtos : Option Linear → List Subto) :
    (strength.relax violation subtos).subtos = subtos (strength.inRow? violation) := by
  cases strength <;> rfl

/-- A bound gives way by some slack. -/
def GivesWay (env : Env) (values : Assignment) (violation : Option Linear) (slack : Rat) : Prop :=
  match violation with
  | none => slack = 0
  | some term => term.value? env values = some slack

variable {env : Env} {values : Assignment}

theorem value?_atMost {violation : Option Linear} {slack : Rat} (bound : Nat)
    (h : GivesWay env values violation slack) :
    (atMost bound violation).value? env values = some (bound + slack : Rat) := by
  cases violation with
  | none =>
    obtain rfl : slack = 0 := h
    rw [add_zero]
    rfl
  | some term => exact Linear.value?_plus_pair rfl h

theorem value?_atLeast {violation : Option Linear} {slack : Rat} (bound : Nat)
    (h : GivesWay env values violation slack) :
    (atLeast bound violation).value? env values = some (bound - slack : Rat) := by
  cases violation with
  | none =>
    obtain rfl : slack = 0 := h
    rw [sub_zero]
    rfl
  | some term => exact Linear.value?_diff rfl h

/-- What the rows of a rule give way by at a place: nothing if it is hard. -/
def Strength.slack (strength : Strength) (values : Assignment) (name : String)
    (place : Tuple) : Rat :=
  match strength with
  | .hard => 0
  | .soft _ => values name place

section Strength

variable {strength : Strength} {name : String}

theorem givesWay_inRow {violation : Violation} {place : Tuple}
    (h : strength.isSoft = true → violation.inRow.value? env values = some (values name place)) :
    GivesWay env values (strength.inRow? violation) (strength.slack values name place) := by
  cases strength with
  | hard => rfl
  | soft penalty => exact h rfl

theorem givesWay_scalar
    (h : strength.isSoft = true → env.Ranges name (fun _ : Unit => []) Finset.univ) :
    GivesWay env values (strength.inRow? (.scalar name)) (strength.slack values name []) :=
  givesWay_inRow fun hsoft => (h hsoft).value? (Finset.mem_univ ()) rfl

theorem givesWay_member {place : Nat} {members : Finset Int}
    (h : strength.isSoft = true → env.Ranges name Tuple.one members ∧ (place : Int) ∈ members) :
    GivesWay env values (strength.inRow? (.member name place))
      (strength.slack values name (Tuple.one place)) :=
  givesWay_inRow fun hsoft => (h hsoft).1.value? (h hsoft).2 rfl

theorem givesWay_slot {declared : VarIndex} {index : Index} {members : Finset Int} {slot : Int}
    (h : strength.isSoft = true → env.Ranges name Tuple.one members) (hmem : slot ∈ members)
    (hslot : env.value? "s" = some (slot : Rat)) :
    GivesWay env values (strength.inRow? (.array name declared ["s"] index))
      (strength.slack values name (Tuple.one slot)) :=
  givesWay_inRow fun hsoft => (h hsoft).value? hmem (by simp [Arith.values?, hslot, Tuple.one])

theorem givesWay_pair {declared : VarIndex} {index : Index} {members : Finset (Int × Int)}
    {pair : Int × Int} (h : strength.isSoft = true → env.Ranges name Tuple.two members)
    (hmem : pair ∈ members) (hm : env.value? "m" = some (pair.1 : Rat))
    (hn : env.value? "n" = some (pair.2 : Rat)) :
    GivesWay env values (strength.inRow? (.array name declared ["m", "n"] index))
      (strength.slack values name (Tuple.two pair)) :=
  givesWay_inRow fun hsoft => (h hsoft).value? hmem (by simp [Arith.values?, hm, hn, Tuple.two])

end Strength

/-- A violation that belongs to a rule alone is a variable with some members. None of them is
negative, and the charge counts them all. -/
structure Violation.Spans {α : Type} (violation : Violation) (env : Env) (name : String)
    (tuple : α → Tuple) (members : Finset α) : Prop where
  adds : ∃ after, Program.Adds [name] violation.declarations env after ∧
    after.Ranges name tuple members
  holds : ∀ values, (∀ decl ∈ Program.varDecls violation.declarations, decl.Holds env values) ↔
    ∀ a ∈ members, 0 ≤ values name (tuple a)
  total : env.Ranges name tuple members → ∀ values : Assignment,
    violation.total.value? env values = some (∑ a ∈ members, values name (tuple a))

namespace Violation

theorem spans_scalar (name : String) (env : Env) :
    (Violation.scalar name).Spans env name (fun _ : Unit => []) Finset.univ where
  adds := Program.adds_var_scalar name env
  holds values := by
    show (∀ decl ∈ [_], VarDecl.Holds env values decl) ↔ _
    rw [List.forall_mem_singleton]
    exact (VarDecl.holds_scalar.trans VarDecl.admits_nonnegative).trans
      ⟨fun h _ _ => h, fun h => h () (Finset.mem_univ ())⟩
  total hranges values := by
    rw [Finset.sum_const, Finset.card_univ, Fintype.card_unit, one_smul]
    exact hranges.value? (Finset.mem_univ ()) rfl

/-- An array is declared over the members that the charge runs over. -/
theorem spans_array {α : Type} {name : String} {declared : VarIndex} {symbols : List String}
    {index : Index} {tuple : α → Tuple} {members : Finset α} {order : List α}
    {outer inner : α → Env} (horder : Listing order members)
    (hselect : declared.select? env = some (order.map fun a => (tuple a, outer a)))
    (hruns : index.Runs env tuple inner members)
    (hinner : ∀ a, (inner a).subscripts = env.subscripts)
    (hplace : ∀ a, Arith.values? (inner a) (symbols.map .name) = some (tuple a)) :
    (Violation.array name declared symbols index).Spans env name tuple members where
  adds := Program.adds_var name horder hselect
  holds values := by
    show (∀ decl ∈ [_], VarDecl.Holds env values decl) ↔ _
    rw [List.forall_mem_singleton]
    exact (VarDecl.holds_of_select? horder hselect).trans
      (forall₂_congr fun a _ => VarDecl.admits_nonnegative)
  total hranges values := Linear.value?_sumOver hruns fun a ha => by
    obtain ⟨places, hplaces, hlookup⟩ := hranges
    have hname : (inner a).Ranges name tuple members := ⟨places, hplaces, by rw [hinner, hlookup]⟩
    exact hname.value? ha (hplace a)

theorem spans_slots {name : String} {set : SetTerm} {members : Finset Int}
    (h : set.Lists env Tuple.one members) (hslot : env.symbols.lookup "s" = none) :
    (Violation.array name (.over set) ["s"] (.over ["s"] set)).Spans env name
      Tuple.one members := by
  obtain ⟨order, horder, hselect⟩ := h.select?_over
  exact spans_array horder hselect (Index.runs_one h hslot) (fun _ => rfl)
    fun slot => by simp [Arith.values?, Tuple.one]

theorem spans_pairs {name : String} {declared : VarIndex} {index : Index}
    {pairs : Finset (Int × Int)} {order : List (Int × Int)} {outer : Int × Int → Env}
    (horder : Listing order pairs)
    (hselect : declared.select? env = some (order.map fun pair => (Tuple.two pair, outer pair)))
    (hruns : index.Runs env Tuple.two (fun q => (env.bind "m" q.1).bind "n" q.2) pairs) :
    (Violation.array name declared ["m", "n"] index).Spans env name Tuple.two pairs :=
  spans_array horder hselect hruns (fun _ => rfl) fun pair => by
    simp [Arith.values?, Tuple.two]

end Violation

/-- The declarations of a rule of some strength. -/
theorem Strength.adds_relax {strength : Strength} {violation : Violation}
    {subtos : Option Linear → List Subto} {names : List String} {known : Env → Prop}
    (h : strength.isSoft = true →
      ∃ after, Program.Adds names violation.declarations env after ∧ known after) :
    ∃ after, Program.Adds names (strength.relax violation subtos).declarations env after ∧
      (strength.isSoft = true → known after) := by
  cases strength with
  | hard => exact ⟨env, (Program.adds_nil env).mono (by simp), fun h => nomatch h⟩
  | soft penalty =>
    obtain ⟨after, hadds, hknown⟩ := h rfl
    exact ⟨after, hadds, fun _ => hknown⟩

/-- The charge of a rule is its penalty for each unit of its violation. -/
theorem Strength.sumOf?_charges {strength : Strength} {violation : Violation}
    {subtos : Option Linear → List Subto} {total : Rat}
    (h : strength.isSoft = true → violation.total.value? env values = some total) :
    Linear.sumOf? env values (strength.relax violation subtos).charges =
      some (strength.penalty * total) := by
  cases strength with
  | hard =>
    rw [Strength.penalty, Nat.cast_zero, zero_mul]
    rfl
  | soft penalty =>
    show Linear.sumOf? env values [.weighted violation.total penalty] = _
    rw [Linear.sumOf?_singleton, Linear.value?, h rfl, mul_comm]
    rfl

end RoundRobin
