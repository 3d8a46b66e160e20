import RoundRobin.Proofs.Zimpl.Expansion

/-! Values in ordered fields. A program has rational numbers in it, but its variables may as well
take real numbers: terms then have values in the field, and rows hold or fail there. For rational
numbers this is what the program means. -/

namespace RoundRobin.Zimpl

section Meaning

variable {K : Type} [Field K] [LinearOrder K]

mutual

/-- The value of a term, for variables whose values are in a field. -/
def Linear.valueIn? (env : Env) (values : String → Tuple → K) : Linear → Option K
  | .const value => do return ((← value.value? env : Rat) : K)
  | .var name subscripts => do
    let subscripts ← Arith.values? env subscripts
    if ((env.subscripts.lookup name).getD []).contains subscripts then
      return values name subscripts
    else none
  | .sum terms => Linear.sumIn? env values terms
  | .diff a b => do return (← a.valueIn? env values) - (← b.valueIn? env values)
  | .scaled factor term => do
    return ((← factor.value? env : Rat) : K) * (← term.valueIn? env values)
  | .weighted term weight => do return (← term.valueIn? env values) * (weight : K)
  | .sumOver index body => do
    let terms ← (← index.expand? env).mapM fun env => body.valueIn? env values
    return terms.sum
  | .abs term => do return |← term.valueIn? env values|

def Linear.sumIn? (env : Env) (values : String → Tuple → K) : List Linear → Option K
  | [] => some 0
  | term :: terms => do return (← term.valueIn? env values) + (← Linear.sumIn? env values terms)

end

def Relation.HoldsIn (a b : K) : Relation → Prop
  | .le => a ≤ b
  | .ge => b ≤ a
  | .eq => a = b

def Row.HoldsIn (env : Env) (values : String → Tuple → K) (row : Row) : Prop :=
  ∃ a ∈ row.lhs.valueIn? env values, ∃ b ∈ row.rhs.valueIn? env values, row.relation.HoldsIn a b

/-- All rows of a block hold at all tuples of its indices. -/
def Subto.HoldsIn (env : Env) (values : String → Tuple → K) (block : Subto) : Prop :=
  ∃ envs ∈ Index.expandAll? env block.foralls, ∀ env ∈ envs, ∀ row ∈ block.rows,
    row.HoldsIn env values

end Meaning

section Rational

mutual

/-- For rational values of the variables, a term has the value that it has in the field. -/
theorem Linear.valueIn?_rat (env : Env) (values : Assignment) (term : Linear) :
    term.valueIn? env values = term.value? env values := by
  cases term with
  | const value =>
    rw [Linear.valueIn?, Linear.value?]
    cases value.value? env <;> rfl
  | var name subscripts => simp only [Linear.valueIn?, Linear.value?, List.contains_iff_mem]
  | sum terms => rw [Linear.valueIn?, Linear.value?, Linear.sumIn?_rat env values terms]
  | diff a b =>
    rw [Linear.valueIn?, Linear.value?, Linear.valueIn?_rat env values a,
      Linear.valueIn?_rat env values b]
  | scaled factor term =>
    rw [Linear.valueIn?, Linear.value?, Linear.valueIn?_rat env values term]
    simp only [Rat.cast_id]
  | weighted term weight =>
    rw [Linear.valueIn?, Linear.value?, Linear.valueIn?_rat env values term]
  | sumOver index body =>
    rw [Linear.valueIn?, Linear.value?]
    simp only [fun env => Linear.valueIn?_rat env values body]
  | abs term =>
    rw [Linear.valueIn?, Linear.value?, Linear.valueIn?_rat env values term]
    simp only [abs_eq_abs]

theorem Linear.sumIn?_rat (env : Env) (values : Assignment) (terms : List Linear) :
    Linear.sumIn? env values terms = Linear.sumOf? env values terms := by
  cases terms with
  | nil => rfl
  | cons term terms =>
    rw [Linear.sumIn?, Linear.sumOf?, Linear.valueIn?_rat env values term,
      Linear.sumIn?_rat env values terms]

end

theorem Row.holdsIn_rat (env : Env) (values : Assignment) (row : Row) :
    row.HoldsIn env values ↔ row.Holds env values := by
  rw [HoldsIn, Holds, Linear.valueIn?_rat, Linear.valueIn?_rat]
  cases row.relation <;> rfl

/-- For rational values of the variables, a block holds in the field if and only if it holds. -/
theorem Subto.holdsIn_rat (env : Env) (values : Assignment) (block : Subto) :
    block.HoldsIn env values ↔ block.Holds env values := by
  simp only [HoldsIn, Holds, Row.holdsIn_rat]

end Rational

section Expansion

variable {K : Type} [Field K] [LinearOrder K] {env : Env} {values : String → Tuple → K}
  {tuple : α → Tuple} {members : Finset α} {inner : α → Env}

theorem Linear.valueIn?_sumOver {index : Index} {body : Linear} {f : α → K}
    (h : index.Runs env tuple inner members)
    (hbody : ∀ a ∈ members, body.valueIn? (inner a) values = some (f a)) :
    (Linear.sumOver index body).valueIn? env values = some (∑ a ∈ members, f a) := by
  obtain ⟨order, horder, hexpand⟩ := h.expand?
  have hterms : (order.map inner).mapM (fun env => body.valueIn? env values) =
      some (order.map f) := by
    rw [List.mapM_map]
    exact mapM_total fun a ha => hbody a ((horder.mem_iff a).mp ha)
  rw [Linear.valueIn?, hexpand, ← horder.sum_eq]
  show Option.bind (List.mapM _ _) _ = _
  rw [hterms]
  rfl

theorem Linear.valueIn?_pair {a b : Linear} {p q : K} (ha : a.valueIn? env values = some p)
    (hb : b.valueIn? env values = some q) :
    (Linear.sum [a, b]).valueIn? env values = some (p + q) := by
  rw [valueIn?, sumIn?, ha, sumIn?, hb, sumIn?]
  show some (p + (q + 0)) = _
  rw [add_zero]

theorem Env.Ranges.valueIn? {name : String} {subscripts : List Arith} {a : α}
    (h : env.Ranges name tuple members) (ha : a ∈ members)
    (hplace : Arith.values? env subscripts = some (tuple a)) :
    (Linear.var name subscripts).valueIn? env values = some (values name (tuple a)) := by
  obtain ⟨order, horder, hname⟩ := h
  have hmem : tuple a ∈ (env.subscripts.lookup name).getD [] := by
    rw [hname]
    exact List.mem_map_of_mem ((horder.mem_iff a).mpr ha)
  rw [Linear.valueIn?, hplace]
  exact if_pos (List.contains_iff_mem.mpr hmem)

theorem Row.holdsIn_iff {row : Row} {a b : K} (ha : row.lhs.valueIn? env values = some a)
    (hb : row.rhs.valueIn? env values = some b) :
    row.HoldsIn env values ↔ row.relation.HoldsIn a b := by
  simp [HoldsIn, ha, hb]

theorem Subto.holdsIn_forall {name : String} {index : Index} {indices : List Index}
    {rows : List Row} (h : index.Runs env tuple inner members) :
    Subto.HoldsIn env values ⟨name, index :: indices, rows⟩ ↔
      ∀ a ∈ members, Subto.HoldsIn (inner a) values ⟨name, indices, rows⟩ :=
  h.exists_mem_expandAll?

theorem Subto.holdsIn_row {name : String} {row : Row} :
    Subto.HoldsIn env values ⟨name, [], [row]⟩ ↔ row.HoldsIn env values := by
  simp [HoldsIn, Index.expandAll?]

end Expansion

end RoundRobin.Zimpl
