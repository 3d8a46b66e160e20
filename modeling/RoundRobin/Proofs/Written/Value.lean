import Mathlib
import RoundRobin.Proofs.Written.Arithmetic
import RoundRobin.Proofs.Zimpl.Expansion

/-! What is read from the text of a term has the value of the term: opening the right operand of a
sum or product does not change it. -/

namespace RoundRobin.Zimpl

open Written

variable {env : Env}

theorem Arith.value?_plus (a : Arith) : (b : Arith) →
    (a.plus b).value? env = (Arith.add a b).value? env
  | .add b c => by
    rw [Arith.plus, Arith.value?_plus (a.plus b) c]
    simp only [Arith.value?, Arith.value?_plus a b]
    cases a.value? env <;> cases b.value? env <;> cases c.value? env <;> simp [add_assoc]
  | .sub b c => by
    rw [Arith.plus]
    simp only [Arith.value?, Arith.value?_plus a b]
    cases a.value? env <;> cases b.value? env <;> cases c.value? env <;> simp [add_sub_assoc]
  | .int _ | .name _ | .mul _ _ | .div _ _ | .floor _ | .min _ _ | .card _ => rfl

theorem Arith.value?_times (a : Arith) : (b : Arith) →
    (a.times b).value? env = (Arith.mul a b).value? env
  | .mul b c => by
    rw [Arith.times, Arith.value?_times (a.times b) c]
    simp only [Arith.value?, Arith.value?_times a b]
    cases a.value? env <;> cases b.value? env <;> cases c.value? env <;> simp [mul_assoc]
  | .div b c => by
    rw [Arith.times]
    simp only [Arith.value?, Arith.value?_times a b]
    cases hc : c.value? env with
    | none => cases a.value? env <;> cases b.value? env <;> rfl
    | some divisor =>
      by_cases hzero : divisor = 0 <;> cases a.value? env <;> cases b.value? env <;>
        simp [hzero, mul_div_assoc]
  | .int _ | .name _ | .add _ _ | .sub _ _ | .floor _ | .min _ _ | .card _ => rfl

theorem joined_nil (tuples : List Tuple) : joined tuples [[]] = tuples := by simp [joined]

/-- A product of one set is the set. -/
theorem tuples?_setProduct (factors : List SetTerm) :
    (setProduct factors).tuples? env = (SetTerm.product factors).tuples? env := by
  match factors with
  | [factor] =>
    simp only [setProduct, SetTerm.tuples?, SetTerm.productTuples?]
    cases factor.tuples? env <;> simp [joined_nil]
  | [] | _ :: _ :: _ => rfl

mutual

theorem Arith.value?_asRead (env : Env) : (a : Arith) → a.asRead.value? env = a.value? env
  | .int _ | .name _ => rfl
  | .add a b => by
    rw [Arith.asRead, Arith.value?_plus]
    simp only [Arith.value?, a.value?_asRead env, b.value?_asRead env]
  | .mul a b => by
    rw [Arith.asRead, Arith.value?_times]
    simp only [Arith.value?, a.value?_asRead env, b.value?_asRead env]
  | .sub a b | .div a b | .min a b => by
    simp only [Arith.asRead, Arith.value?, a.value?_asRead env, b.value?_asRead env]
  | .floor a => by simp only [Arith.asRead, Arith.value?, a.value?_asRead env]
  | .card set => by simp only [Arith.asRead, Arith.value?, set.tuples?_asRead env]

theorem Arith.values?_asRead (env : Env) : (as : List Arith) →
    Arith.values? env (Arith.allAsRead as) = Arith.values? env as
  | [] => rfl
  | a :: as => by
    simp only [Arith.allAsRead, Arith.values?, a.value?_asRead env, Arith.values?_asRead env as]

theorem SetTerm.tuples?_asRead (env : Env) : (s : SetTerm) → s.asRead.tuples? env = s.tuples? env
  | .name _ | .subsets _ _ | .indexset _ => rfl
  | .member _ index => by simp only [SetTerm.asRead, SetTerm.tuples?, index.value?_asRead env]
  | .range first last => by
    simp only [SetTerm.asRead, SetTerm.tuples?, first.value?_asRead env, last.value?_asRead env]
  | .list elements => by
    simp only [SetTerm.asRead, SetTerm.tuples?, Arith.values?_asRead env elements]
  | .product factors => by
    rw [SetTerm.asRead, tuples?_setProduct]
    simp only [SetTerm.tuples?, SetTerm.productTuples?_asRead env factors]
  | .minus a b => by
    simp only [SetTerm.asRead, SetTerm.tuples?, a.tuples?_asRead env, b.tuples?_asRead env]
  | .builder index => by simp only [SetTerm.asRead, SetTerm.tuples?, index.select?_asRead env]

theorem SetTerm.productTuples?_asRead (env : Env) : (ss : List SetTerm) →
    SetTerm.productTuples? env (SetTerm.allAsRead ss) = SetTerm.productTuples? env ss
  | [] => rfl
  | s :: ss => by
    simp only [SetTerm.allAsRead, SetTerm.productTuples?, s.tuples?_asRead env,
      SetTerm.productTuples?_asRead env ss]

theorem Index.select?_asRead (env : Env) : (index : Index) →
    index.asRead.select? env = index.select? env
  | .mk symbols domain condition => by
    simp only [Index.asRead, Index.select?, domain.tuples?_asRead env,
      fun inner => condition.holds?_asRead inner]

theorem Condition.holds?_asRead (env : Env) : (condition : Condition) →
    condition.asRead.holds? env = condition.holds? env
  | .always => rfl
  | .ne a b | .lt a b => by
    simp only [Condition.asRead, Condition.holds?, a.value?_asRead env, b.value?_asRead env]

end

namespace Linear

/-- Two terms have the same value, or both none, whatever their names and variables stand for. -/
def Alike (a b : Linear) : Prop :=
  ∀ (env : Env) (values : Assignment), a.value? env values = b.value? env values

section Alike

variable {a b c d : Linear}

theorem Alike.refl (a : Linear) : a.Alike a := fun _ _ => rfl

theorem Alike.symm (h : a.Alike b) : b.Alike a := fun env values => (h env values).symm

theorem Alike.trans (h : a.Alike b) (g : b.Alike c) : a.Alike c :=
  fun env values => (h env values).trans (g env values)

theorem Alike.sumOf? {as bs : List Linear} (h : List.Forall₂ Alike as bs) (env : Env)
    (values : Assignment) : Linear.sumOf? env values as = Linear.sumOf? env values bs := by
  induction h with
  | nil => rfl
  | cons hab _ ih => rw [Linear.sumOf?, Linear.sumOf?, hab env values, ih]

theorem Alike.sum {as bs : List Linear} (h : List.Forall₂ Alike as bs) :
    (Linear.sum as).Alike (.sum bs) := fun env values => Alike.sumOf? h env values

theorem Alike.diff (h : a.Alike b) (g : c.Alike d) : (Linear.diff a c).Alike (.diff b d) :=
  fun env values => by simp only [value?, h env values, g env values]

theorem Alike.scaled (h : a.Alike b) (factor : Arith) :
    (Linear.scaled factor a).Alike (.scaled factor b) :=
  fun env values => by simp only [value?, h env values]

theorem Alike.weighted (h : a.Alike b) (weight : Int) :
    (Linear.weighted a weight).Alike (.weighted b weight) :=
  fun env values => by simp only [value?, h env values]

theorem Alike.abs (h : a.Alike b) : (Linear.abs a).Alike (.abs b) :=
  fun env values => by simp only [value?, h env values]

theorem Alike.sumOver (h : a.Alike b) (index : Index) :
    (Linear.sumOver index a).Alike (.sumOver index b) :=
  fun env values => by simp only [value?, fun env => h env values]

theorem alike_const {a b : Arith} (h : ∀ env, a.value? env = b.value? env) :
    (Linear.const a).Alike (.const b) := fun env _ => h env

theorem alike_asRead (a : Arith) : (Linear.const a.asRead).Alike (.const a) :=
  alike_const fun env => a.value?_asRead env

theorem alike_var (name : String) (subscripts : List Arith) :
    (Linear.var name (subscripts.map Arith.asRead)).Alike
      (.var name subscripts) := fun env values => by
  simp only [value?, ← Arith.allAsRead_eq_map, Arith.values?_asRead env subscripts]

theorem alike_sumOver (index : Index) (body : Linear) :
    (Linear.sumOver index.asRead body).Alike (.sumOver index body) := fun env values => by
  simp only [value?, Index.expand?, index.select?_asRead env]

theorem alike_scaled (factor : Arith) (term : Linear) :
    (Linear.scaled factor.asRead term).Alike (.scaled factor term) := fun env values => by
  simp only [value?, factor.value?_asRead env]

end Alike

/-- What is read as a sum has the value of the sum. -/
theorem alike_sumOf (a b : Linear) : (sumOf a b).Alike (.sum [a, b]) := by
  intro env values
  match a, b with
  | .const a, .const b =>
    show (Arith.add a b).value? env = _
    simp only [Arith.value?, value?, Linear.sumOf?]
    cases a.value? env <;> cases b.value? env <;> simp
  | .sum terms, b =>
    show Linear.sumOf? env values (terms ++ [b]) = _
    rw [sumOf?_append, sumOf?_singleton, value?, Linear.sumOf?, sumOf?_singleton]
    cases h : (Linear.sum terms).value? env values <;> rw [value?] at h <;> rw [h] <;>
      cases b.value? env values <;> rfl
  | .const _, .var _ _ | .const _, .sum _ | .const _, .diff _ _ | .const _, .scaled _ _
  | .const _, .weighted _ _ | .const _, .sumOver _ _ | .const _, .abs _ | .var _ _, _ | .diff _ _, _
  | .scaled _ _, _ | .weighted _ _, _ | .sumOver _ _, _ | .abs _, _ => rfl

theorem alike_differenceOf (a b : Linear) : (differenceOf a b).Alike (.diff a b) := by
  intro env values
  match a, b with
  | .const a, .const b => rfl
  | .const _, .var _ _ | .const _, .sum _ | .const _, .diff _ _ | .const _, .scaled _ _
  | .const _, .weighted _ _ | .const _, .sumOver _ _ | .const _, .abs _ | .var _ _, _ | .diff _ _, _
  | .scaled _ _, _ | .weighted _ _, _ | .sumOver _ _, _ | .abs _, _ | .sum _, _ => rfl

/-- Behind a plus, arithmetic is joined to a term with the value that it adds. -/
theorem alike_sumWith : (a : Arith) → (left : Linear) →
    (left.sumWith a).Alike (.sum [left, .const a])
  | .add a b, left => by
    intro env values
    rw [sumWith, alike_sumWith b (left.sumWith a) env values]
    simp only [value?, Linear.sumOf?, alike_sumWith a left env values, Arith.value?]
    cases left.value? env values <;> cases a.value? env <;> cases b.value? env <;> simp [add_assoc]
  | .sub a b, left => by
    intro env values
    rw [sumWith, alike_differenceOf _ _ env values]
    simp only [value?, Linear.sumOf?, alike_sumWith a left env values, Arith.value?]
    cases left.value? env values <;> cases a.value? env <;> cases b.value? env <;>
      simp [add_sub_assoc]
  | .int _, _ | .name _, _ | .mul _ _, _ | .div _ _, _ | .floor _, _ | .min _ _, _ | .card _, _ =>
    alike_sumOf _ _

/-- A term that is a summand of its own: a variable, an absolute value or a sum over an index, with
any factors and weights. -/
def isTerm : Linear → Bool
  | .const _ | .sum _ | .diff _ _ => false
  | .var _ _ | .sumOver _ _ | .abs _ => true
  | .scaled _ term => term.isTerm
  | .weighted term _ => term.isTerm

/-- A term has the value of another and is a summand of its own where the other is one. -/
structure StandsFor (read term : Linear) : Prop where
  alike : read.Alike term
  isTerm : term.isTerm = true → read.isTerm = true

section StandsFor

variable {a b c : Linear}

theorem StandsFor.refl (a : Linear) : a.StandsFor a := ⟨.refl a, id⟩

theorem StandsFor.trans (h : a.StandsFor b) (g : b.StandsFor c) : a.StandsFor c :=
  ⟨h.alike.trans g.alike, h.isTerm ∘ g.isTerm⟩

theorem StandsFor.scaled (h : a.StandsFor b) (factor : Arith) :
    (Linear.scaled factor a).StandsFor (.scaled factor b) := ⟨h.alike.scaled factor, h.isTerm⟩

theorem StandsFor.weighted (h : a.StandsFor b) (weight : Int) :
    (Linear.weighted a weight).StandsFor (.weighted b weight) := ⟨h.alike.weighted weight, h.isTerm⟩

end StandsFor

/-- The product of arithmetic and a term stands for the term scaled. -/
theorem productOf?_const (factor : Arith) (term : Linear) :
    ∃ product ∈ productOf? (.const factor) term, product.StandsFor (.scaled factor term) := by
  match term with
  | .const _ => exact ⟨_, rfl, fun _ _ => rfl, nofun⟩
  | .var _ _ | .sum _ | .diff _ _ | .scaled _ _ | .weighted _ _ | .sumOver _ _ | .abs _ =>
    exact ⟨_, rfl, .refl _⟩

/-- The product of a term and an integer stands for the term with the integer as its weight. -/
theorem productOf?_int (term : Linear) (weight : Int) :
    ∃ product ∈ productOf? term (.const (.int weight)),
      product.StandsFor (.weighted term weight) := by
  have hscaled : (Linear.scaled (.int weight) term).Alike (.weighted term weight) := by
    intro env values
    simp only [value?, Arith.value?]
    cases term.value? env values <;> simp [mul_comm]
  match term with
  | .const _ => exact ⟨_, rfl, fun _ _ => rfl, nofun⟩
  | .var _ _ | .sum _ | .diff _ _ | .scaled _ _ | .weighted _ _ | .sumOver _ _ | .abs _ =>
    exact ⟨_, rfl, hscaled, id⟩

/-- A term with some weights, each behind the ones before it. -/
def weigh (term : Linear) (weights : List Int) : Linear := weights.foldl .weighted term

theorem isTerm_weigh (term : Linear) (weights : List Int) :
    (term.weigh weights).isTerm = term.isTerm := by
  induction weights generalizing term with
  | nil => rfl
  | cons weight weights ih => exact ih (term.weighted weight)

theorem StandsFor.weigh {a b : Linear} (h : a.StandsFor b) (weights : List Int) :
    (a.weigh weights).StandsFor (b.weigh weights) := by
  induction weights generalizing a b with
  | nil => exact h
  | cons weight weights ih => exact ih (h.weighted weight)

theorem weigh_scaled (factor : Arith) (term : Linear) (weights : List Int) :
    ((Linear.scaled factor term).weigh weights).Alike (.scaled factor (term.weigh weights)) := by
  induction weights generalizing term with
  | nil => exact .refl _
  | cons weight weights ih =>
    have hinside : (Linear.weighted (.scaled factor term) weight).StandsFor
        (.scaled factor (.weighted term weight)) := by
      refine ⟨fun env values => ?_, id⟩
      simp only [value?]
      cases factor.value? env <;> cases term.value? env values <;> simp [mul_assoc]
    exact (hinside.weigh weights).alike.trans (ih _)

theorem weigh_scaled_standsFor (factor : Arith) (term : Linear) (weights : List Int) :
    ((Linear.scaled factor term).weigh weights).StandsFor (.scaled factor (term.weigh weights)) :=
  ⟨weigh_scaled factor term weights, by simp [isTerm_weigh, isTerm]⟩

theorem scaled_weigh_standsFor (factor : Arith) (term : Linear) (weights : List Int) :
    (Linear.scaled factor (term.weigh weights)).StandsFor
      ((Linear.scaled factor term).weigh weights) :=
  ⟨(weigh_scaled factor term weights).symm, by simp [isTerm_weigh, isTerm]⟩

theorem mapM_bind_some {α β γ : Type} (f : β → γ) (step : α → Option β) (items : List α) :
    (items.mapM fun item => (step item).bind fun result => some (f result)) =
      (items.mapM step).map (List.map f) := by
  induction items with
  | nil => rfl
  | cons item items ih =>
    simp only [List.mapM_cons, ih]
    cases step item <;> cases items.mapM step <;> rfl

/-- The weights of a sum over an index may stand inside it. -/
theorem weigh_sumOver (index : Index) (body : Linear) (weights : List Int) :
    (Linear.sumOver index (body.weigh weights)).StandsFor
      ((Linear.sumOver index body).weigh weights) := by
  induction weights generalizing body with
  | nil => exact .refl _
  | cons weight weights ih =>
    have hinside : (Linear.sumOver index (.weighted body weight)).StandsFor
        (.weighted (.sumOver index body) weight) := by
      refine ⟨fun env values => Eq.symm ?_, id⟩
      simp only [value?]
      cases hexpand : index.expand? env with
      | none => rfl
      | some envs =>
        have hweighted :=
          mapM_bind_some (· * (weight : Rat)) (fun env => body.value? env values) envs
        simp only [Option.bind_eq_bind, Option.pure_def, Option.bind_some] at hweighted ⊢
        rw [hweighted]
        cases envs.mapM fun env => body.value? env values with
        | none => rfl
        | some terms =>
          have hsum := List.sum_map_mul_right terms id (weight : Rat)
          rw [List.map_id] at hsum
          exact congrArg some hsum.symm
    exact (ih _).trans (hinside.weigh weights)

end Linear

end RoundRobin.Zimpl
