import RoundRobin.Proofs.Zimpl.Occurrence

/-! What blocks mean. The values of the two sides of a row tell both when the row holds and that it
refers to declared subscripts only, so one walk over the indices and rows of a block gives both. -/

namespace RoundRobin.Zimpl

variable {env : Env} {values : Assignment} {p q : Prop}

/-- Both sides of a row have values, which relate as the row asks if and only if a condition
holds. -/
def Row.Means (env : Env) (values : Assignment) (row : Row) (condition : Prop) : Prop :=
  ∃ a ∈ row.lhs.value? env values, ∃ b ∈ row.rhs.value? env values,
    (row.relation.Holds a b ↔ condition)

namespace Row

variable {row : Row}

theorem means {a b : Rat} (ha : row.lhs.value? env values = some a)
    (hb : row.rhs.value? env values = some b) : row.Means env values (row.relation.Holds a b) :=
  ⟨a, ha, b, hb, Iff.rfl⟩

theorem Means.congr (h : row.Means env values p) (hpq : p ↔ q) : row.Means env values q := by
  obtain ⟨a, ha, b, hb, hp⟩ := h
  exact ⟨a, ha, b, hb, hp.trans hpq⟩

theorem Means.holds_iff (h : row.Means env values p) : row.Holds env values ↔ p := by
  obtain ⟨a, ha, b, hb, hp⟩ := h
  exact (Row.holds_iff ha hb).trans hp

end Row

/-- A block refers to declared subscripts only, and holds if and only if a condition does. -/
structure Subto.Means (env : Env) (values : Assignment) (block : Subto)
    (condition : Prop) : Prop where
  within : block.Within env
  holds_iff : block.Holds env values ↔ condition

/-- Each of some blocks refers to declared subscripts only, and they all hold if and only if a
condition does. -/
structure Subto.AllMean (env : Env) (values : Assignment) (blocks : List Subto) (condition : Prop) :
    Prop where
  within : ∀ block ∈ blocks, block.Within env
  holds_iff : (∀ block ∈ blocks, block.Holds env values) ↔ condition

namespace Subto

variable {block : Subto} {blocks more : List Subto} {name : String} {rows : List Row}
  {indices : List Index}

theorem Means.congr (h : block.Means env values p) (hpq : p ↔ q) : block.Means env values q :=
  ⟨h.within, h.holds_iff.trans hpq⟩

theorem means_row {row : Row} (h : row.Means env values p) :
    Subto.Means env values ⟨name, [], [row]⟩ p := by
  have hholds := h.holds_iff
  obtain ⟨a, ha, b, hb, -⟩ := h
  exact ⟨within_row ha hb, holds_row.trans hholds⟩

theorem means_cons {row : Row} (hrow : row.Means env values p)
    (hrows : Subto.Means env values ⟨name, [], rows⟩ q) :
    Subto.Means env values ⟨name, [], row :: rows⟩ (p ∧ q) := by
  have hholds := hrow.holds_iff
  obtain ⟨a, ha, b, hb, -⟩ := hrow
  refine ⟨within_cons ha hb hrows.within, ?_⟩
  rw [holds_rows, List.forall_mem_cons, hholds, ← hrows.holds_iff, holds_rows]

/-- Behind an index, a block asks what it asks inside at every member. -/
theorem means_forall {index : Index} {tuple : α → Tuple} {inner : α → Env} {members : Finset α}
    {condition : α → Prop} (hruns : index.Runs env tuple inner members)
    (h : ∀ a ∈ members, Subto.Means (inner a) values ⟨name, indices, rows⟩ (condition a)) :
    Subto.Means env values ⟨name, index :: indices, rows⟩ (∀ a ∈ members, condition a) where
  within := within_forall hruns fun a ha => (h a ha).within
  holds_iff := (holds_forall hruns).trans (forall₂_congr fun a ha => (h a ha).holds_iff)

/-- The same for an index over listed numbers. -/
theorem means_ids {symbol : String} {ids : List Int} {condition : Int → Prop}
    (hfree : env.symbols.lookup symbol = none)
    (h : ∀ id ∈ ids, Subto.Means (env.bind symbol id) values ⟨name, indices, rows⟩ (condition id)) :
    Subto.Means env values ⟨name, .over [symbol] (.ids ids) :: indices, rows⟩
      (∀ id ∈ ids, condition id) :=
  (means_forall (Index.runs_one (SetTerm.lists_ids env ids) hfree) fun id hid =>
    h id (List.mem_toFinset.mp hid)).congr (by simp only [List.mem_toFinset])

namespace AllMean

theorem congr (h : AllMean env values blocks p) (hpq : p ↔ q) : AllMean env values blocks q :=
  ⟨h.within, h.holds_iff.trans hpq⟩

theorem nil : AllMean env values [] True :=
  ⟨List.forall_mem_nil _, iff_of_true (List.forall_mem_nil _) trivial⟩

theorem single (h : block.Means env values p) : AllMean env values [block] p :=
  ⟨List.forall_mem_singleton.mpr h.within, List.forall_mem_singleton.trans h.holds_iff⟩

theorem append (h : AllMean env values blocks p) (hmore : AllMean env values more q) :
    AllMean env values (blocks ++ more) (p ∧ q) where
  within := List.forall_mem_append.mpr ⟨h.within, hmore.within⟩
  holds_iff := List.forall_mem_append.trans (and_congr h.holds_iff hmore.holds_iff)

theorem cons (h : block.Means env values p) (hmore : AllMean env values more q) :
    AllMean env values (block :: more) (p ∧ q) :=
  (single h).append hmore

theorem flatMap {items : List α} {part : α → List Subto} {condition : α → Prop}
    (h : ∀ item ∈ items, AllMean env values (part item) (condition item)) :
    AllMean env values (items.flatMap part) (∀ item ∈ items, condition item) where
  within := List.forall_mem_flatMap.mpr fun item hitem => (h item hitem).within
  holds_iff :=
    List.forall_mem_flatMap.trans (forall₂_congr fun item hitem => (h item hitem).holds_iff)

/-- Blocks that stand under a condition ask nothing where it fails. -/
theorem ite {c : Prop} [Decidable c] (h : c → AllMean env values blocks p) :
    AllMean env values (if c then blocks else []) (c → p) := by
  split
  · rename_i hc
    exact (h hc).congr ⟨fun hp _ => hp, fun hp => hp hc⟩
  · rename_i hc
    exact nil.congr (iff_of_true trivial fun hp => absurd hp hc)

/-- The same for the statements that they are part of. -/
theorem emitted {c : Prop} [Decidable c] {statements : List Statement}
    (h : c → AllMean env values (Program.subtos statements) p) :
    AllMean env values (Program.subtos (if c then statements else [])) (c → p) := by
  rw [apply_ite Program.subtos]
  exact ite h

end AllMean

end Subto

end RoundRobin.Zimpl
