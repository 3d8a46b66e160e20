import RoundRobin.Proofs.Zimpl.Expansion

/-! Blocks and their places. The indices of a block run together over the members of a finite set,
each once, so a block asks one thing at each of them. -/

namespace RoundRobin.Zimpl

variable {env : Env} {tuple : α → Tuple} {members : Finset α} {values : Assignment}

/-- Some indices, each inside the ones before it, run over the members of a finite set, each once,
with `inner` as what the names stand for at a member. -/
def Index.Covers (env : Env) (indices : List Index) (members : Finset α) (inner : α → Env) : Prop :=
  ∃ order, Listing order members ∧ Index.expandAll? env indices = some (order.map inner)

namespace Listing

/-- All pairs of a listed member and one that is listed for it. -/
theorem pairs {order : List α} {others : Finset β} {order' : α → List β} (h : Listing order members)
    (h' : ∀ a ∈ members, Listing (order' a) others) :
    Listing (order.flatMap fun a => (order' a).map (a, ·)) (members ×ˢ others) := by
  constructor
  · refine List.nodup_flatMap.mpr ⟨fun a ha => ?_, h.nodup.imp fun {a b} hne q hq hq' => ?_⟩
    · exact (h' a ((h.mem_iff a).mp ha)).nodup.map (Prod.mk_right_injective a)
    · obtain ⟨x, -, rfl⟩ := List.mem_map.mp hq
      obtain ⟨y, -, heq⟩ := List.mem_map.mp hq'
      exact hne (congrArg Prod.fst heq).symm
  · rintro ⟨a, b⟩
    simp only [List.mem_flatMap, List.mem_map, Prod.mk.injEq, Finset.mem_product, ← h.mem_iff]
    constructor
    · rintro ⟨a, ha, b, hb, rfl, rfl⟩
      exact ⟨ha, ((h' a ((h.mem_iff a).mp ha)).mem_iff b).mp hb⟩
    · rintro ⟨ha, hb⟩
      exact ⟨a, ha, b, ((h' a ((h.mem_iff a).mp ha)).mem_iff b).mpr hb, rfl, rfl⟩

/-- The images of the members under an injection. -/
theorem image [DecidableEq β] {order : List α} (h : Listing order members) {f : α → β}
    (hf : Function.Injective f) : Listing (order.map f) (members.image f) :=
  ⟨h.nodup.map hf, fun b => by simp [h.mem_iff]⟩

end Listing

namespace Index

variable {index : Index} {indices : List Index} {inner : α → Env}

theorem Runs.covers (h : index.Runs env tuple inner members) :
    Covers env [index] members inner := by
  obtain ⟨order, horder, hexpand⟩ := h.expand?
  have hsingle : (order.map inner).mapM (fun env => Index.expandAll? env []) =
      some ((order.map inner).map fun env => [env]) :=
    mapM_total fun _ _ => rfl
  refine ⟨order, horder, ?_⟩
  rw [Index.expandAll?, hexpand]
  show Option.bind (List.mapM _ _) _ = _
  rw [hsingle]
  show some (List.flatten _) = _
  rw [← List.flatMap_def, List.flatMap_singleton']

/-- An index in front of others that run over one set inside it. -/
theorem Runs.covers_cons {others : Finset β} {inner' : α → β → Env}
    (h : index.Runs env tuple inner members)
    (h' : ∀ a ∈ members, Covers (inner a) indices others (inner' a)) :
    Covers env (index :: indices) (members ×ˢ others) fun q => inner' q.1 q.2 := by
  obtain ⟨order, horder, hexpand⟩ := h.expand?
  choose! order' horder' hexpand' using h'
  have hall : (order.map inner).mapM (fun env => Index.expandAll? env indices) =
      some (order.map fun a => (order' a).map (inner' a)) := by
    rw [List.mapM_map]
    exact mapM_total fun a ha => hexpand' a ((horder.mem_iff a).mp ha)
  refine ⟨_, horder.pairs horder', ?_⟩
  rw [Index.expandAll?, hexpand]
  show Option.bind (List.mapM _ _) _ = _
  rw [hall]
  show some (List.flatten _) = _
  rw [← List.flatMap_def, List.map_flatMap]
  simp only [List.map_map, Function.comp_def]

end Index

/-- A block asks something at each member of a finite set, once. -/
def Subto.Asks (block : Subto) (env : Env) (places : Finset α) (demand : α → Assignment → Prop) :
    Prop :=
  ∃ inner, Index.Covers env block.foralls places inner ∧ ∀ place ∈ places, ∀ values,
    (∀ row ∈ block.rows, row.Holds (inner place) values) ↔ demand place values

theorem Subto.Asks.holds_iff {block : Subto} {places : Finset α} {demand : α → Assignment → Prop}
    (h : block.Asks env places demand) (values : Assignment) :
    block.Holds env values ↔ ∀ place ∈ places, demand place values := by
  obtain ⟨inner, ⟨order, horder, hexpand⟩, hrows⟩ := h
  rw [Subto.Holds, hexpand]
  simp only [Option.mem_some_iff, exists_eq_left', List.forall_mem_map, horder.mem_iff]
  exact forall₂_congr fun place hplace => hrows place hplace values

/-- Places may be told by what determines them. -/
theorem Subto.Asks.image [DecidableEq β] {block : Subto} {places : Finset α} {f : α → β}
    {demand : β → Assignment → Prop} (hf : Function.Injective f)
    (h : block.Asks env places fun a => demand (f a)) : block.Asks env (places.image f) demand := by
  obtain ⟨inner, ⟨order, horder, hexpand⟩, hrows⟩ := h
  refine ⟨Function.extend f inner fun _ => env, ⟨order.map f, horder.image hf, ?_⟩, ?_⟩
  · rw [hexpand, List.map_map]
    exact congrArg some (List.map_congr_left fun a _ => (hf.extend_apply inner _ a).symm)
  · intro place hplace values
    obtain ⟨a, ha, rfl⟩ := Finset.mem_image.mp hplace
    rw [hf.extend_apply]
    exact hrows a ha values

/-- A block has no row where it asks something nowhere. -/
theorem Subto.Asks.expandAll?_empty {block : Subto} {demand : α → Assignment → Prop}
    (h : block.Asks env ∅ demand) : Index.expandAll? env block.foralls = some [] := by
  obtain ⟨inner, ⟨order, horder, hexpand⟩, -⟩ := h
  obtain rfl : order = [] := List.eq_nil_iff_forall_not_mem.mpr fun a ha =>
    Finset.notMem_empty a ((horder.mem_iff a).mp ha)
  exact hexpand

end RoundRobin.Zimpl
