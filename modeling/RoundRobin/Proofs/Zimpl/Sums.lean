import RoundRobin.Proofs.Zimpl.Expansion

/-! Sums whose terms are opened. Opening a sum changes neither its value nor its variables. Where no
sum stands directly in a sum, sums may be joined in any grouping, and what is joined is again such a
term. -/

namespace RoundRobin.Zimpl.Linear

/-- Whether a term is a single summand. -/
def isSingle : Linear → Bool
  | .sum _ => false
  | _ => true

/-- Whether no summand of a term is itself a sum. What is inside the summands does not matter. -/
def isShallow (term : Linear) : Bool := term.summands.all isSingle

mutual

/-- Whether no sum in a term, at any depth, has a sum among its own terms. -/
def isFlat : Linear → Bool
  | .const _ | .var _ _ => true
  | .sum terms => terms.all isSingle && allFlat terms
  | .diff a b => a.isFlat && b.isFlat
  | .scaled _ term | .weighted term _ | .sumOver _ term | .abs term => term.isFlat

def allFlat : List Linear → Bool
  | [] => true
  | term :: terms => term.isFlat && allFlat terms

end

theorem allFlat_eq_all (terms : List Linear) : allFlat terms = terms.all isFlat := by
  induction terms with
  | nil => rfl
  | cons term terms ih => rw [allFlat, ih, List.all_cons]

theorem varNamesAll_eq_flatMap (terms : List Linear) :
    varNamesAll terms = terms.flatMap varNames := by
  induction terms with
  | nil => rfl
  | cons term terms ih => rw [varNamesAll, ih, List.flatMap_cons]

theorem sumOf?_eq_mapM (env : Env) (values : Assignment) (terms : List Linear) :
    sumOf? env values terms = (terms.mapM (value? env values)).map List.sum := by
  induction terms with
  | nil => rfl
  | cons term terms ih =>
    rw [sumOf?, ih, List.mapM_cons]
    cases term.value? env values <;> cases terms.mapM (value? env values) <;> simp

section Summands

variable {term : Linear} {terms xs ys : List Linear}

theorem summands_of_isSingle (h : term.isSingle = true) : term.summands = [term] := by
  cases term <;> first | rfl | nomatch h

theorem flatMap_varNames_summands (term : Linear) :
    term.summands.flatMap varNames = term.varNames := by
  cases term with
  | sum terms => rw [summands, varNames, varNamesAll_eq_flatMap]
  | _ => exact List.append_nil _

/-- A flat term has single summands only, and all of them are flat. -/
theorem isFlat_iff_summands :
    term.isFlat = true ↔ ∀ summand ∈ term.summands, summand.isSingle = true ∧
      summand.isFlat = true := by
  cases term with
  | sum terms => simp [isFlat, allFlat_eq_all, summands, forall_and]
  | _ => simp [summands, isSingle]

theorem isShallow_of_isFlat (h : term.isFlat = true) : term.isShallow = true :=
  List.all_eq_true.mpr fun summand hsummand => (isFlat_iff_summands.mp h summand hsummand).1

/-- A sum of terms depends on their summands only. -/
theorem plus_congr (h : xs.flatMap summands = ys.flatMap summands) : plus xs = plus ys := by
  rw [plus, plus, h]

theorem varNames_plus (terms : List Linear) : (plus terms).varNames = terms.flatMap varNames :=
  plus_eq_flatMap flatMap_varNames_summands terms

/-- Nothing is opened a second time: where the one summand of a sum stands for it, it is no sum. -/
theorem summands_plus (h : ∀ term ∈ terms, term.isShallow = true) :
    (plus terms).summands = terms.flatMap summands := by
  rw [plus]
  split
  · rename_i term hone
    have hterm : term ∈ terms.flatMap summands := hone ▸ .head _
    obtain ⟨whole, hwhole, hterm⟩ := List.mem_flatMap.mp hterm
    rw [hone, summands_of_isSingle (List.all_eq_true.mp (h whole hwhole) term hterm)]
  · rfl

theorem isShallow_plus (h : ∀ term ∈ terms, term.isShallow = true) :
    (plus terms).isShallow = true := by
  rw [isShallow, summands_plus h, List.all_eq_true]
  exact List.forall_mem_flatMap.mpr fun term hterm => List.all_eq_true.mp (h term hterm)

theorem isFlat_plus (h : ∀ term ∈ terms, term.isFlat = true) : (plus terms).isFlat = true := by
  rw [isFlat_iff_summands, summands_plus fun term hterm => isShallow_of_isFlat (h term hterm)]
  exact List.forall_mem_flatMap.mpr fun term hterm => isFlat_iff_summands.mp (h term hterm)

theorem plus_append (hxs : ∀ x ∈ xs, x.isShallow = true) (hys : ∀ y ∈ ys, y.isShallow = true) :
    plus (xs ++ ys) = plus [plus xs, plus ys] := by
  refine plus_congr ?_
  calc (xs ++ ys).flatMap summands
      = xs.flatMap summands ++ ys.flatMap summands := List.flatMap_append
    _ = (plus xs).summands ++ (plus ys).summands := by rw [summands_plus hxs, summands_plus hys]
    _ = [plus xs, plus ys].flatMap summands := by simp

theorem plus_plus (hxs : ∀ x ∈ xs, x.isShallow = true) : plus [plus xs] = plus xs := by
  refine plus_congr ?_
  rw [List.flatMap_singleton, summands_plus hxs]

end Summands

/-- A sum has the value of its terms together and their variables in order. Sums of terms without a
sum directly in a sum may be joined in any grouping; what matters there is only that none of their
summands is a sum, and what is joined has the same property, at the top and at any depth. -/
theorem plus_flattens (terms : List Linear) {xs ys : List Linear}
    (hxs : ∀ x ∈ xs, x.isShallow = true) (hys : ∀ y ∈ ys, y.isShallow = true) :
    (∀ env values, (plus terms).value? env values =
        (terms.mapM (value? env values)).map List.sum) ∧
      (plus terms).varNames = terms.flatMap varNames ∧
      plus (xs ++ ys) = plus [plus xs, plus ys] ∧
      plus [plus xs] = plus xs ∧
      (plus xs).isShallow = true ∧
      ((∀ x ∈ xs, x.isFlat = true) → (plus xs).isFlat = true) :=
  ⟨fun env values => (value?_plus env values terms).trans (sumOf?_eq_mapM env values terms),
    varNames_plus terms, plus_append hxs hys, plus_plus hxs, isShallow_plus hxs, isFlat_plus⟩

/-- Two sums, one of them empty, are opened next to a variable, and an inner sum stays as it is. -/
theorem plus_flattens_nested :
    let xs : List Linear := [.sum [.var "a" [], .abs (.sum [.sum [.var "b" []]])], .sum []]
    let ys : List Linear := [.var "a" []]
    plus (xs ++ ys) = .sum [.var "a" [], .abs (.sum [.sum [.var "b" []]]), .var "a" []] ∧
      plus [plus xs, plus ys] = plus (xs ++ ys) ∧
      plus [plus xs] = plus xs ∧
      (plus xs).isShallow = true ∧
      (plus (xs ++ ys)).varNames = ["a", "b", "a"] ∧
      ∀ env values, (plus (xs ++ ys)).value? env values =
        ((xs ++ ys).mapM (value? env values)).map List.sum := by
  intro xs ys
  have hxs : ∀ x ∈ xs, x.isShallow = true := by decide
  have hys : ∀ y ∈ ys, y.isShallow = true := by decide
  obtain ⟨hvalue, hnames, happend, hplus, hshallow, -⟩ := plus_flattens (xs ++ ys) hxs hys
  exact ⟨rfl, happend.symm, hplus, hshallow, hnames, hvalue⟩

end RoundRobin.Zimpl.Linear
