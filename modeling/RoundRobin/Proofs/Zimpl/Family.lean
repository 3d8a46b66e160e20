import RoundRobin.Proofs.Zimpl.Expansion

/-! Families of sets. The subsets of one size of a listed set are its sublists of that length, and
the indices of a family count its members from one. -/

namespace RoundRobin.Zimpl

theorem mem_sublistsOf {members : List α} :
    {size : Nat} → {order : List α} →
      (members ∈ sublistsOf size order ↔ members.Sublist order ∧ members.length = size)
  | 0, order => by
    simp only [sublistsOf, List.mem_singleton, List.length_eq_zero_iff]
    exact ⟨fun h => ⟨h ▸ List.nil_sublist order, h⟩, fun h => h.2⟩
  | size + 1, [] => by
    simp only [sublistsOf, List.not_mem_nil, List.sublist_nil, false_iff]
    rintro ⟨rfl, hlength⟩
    exact nomatch hlength
  | size + 1, a :: order => by
    rw [sublistsOf, List.mem_append, List.mem_map, mem_sublistsOf, List.sublist_cons_iff]
    simp only [mem_sublistsOf]
    constructor
    · rintro (⟨rest, ⟨hrest, hlength⟩, rfl⟩ | ⟨hmembers, hlength⟩)
      · exact ⟨.inr ⟨rest, rfl, hrest⟩, by simp [hlength]⟩
      · exact ⟨.inl hmembers, hlength⟩
    · rintro ⟨hmembers | ⟨rest, rfl, hrest⟩, hlength⟩
      · exact .inr ⟨hmembers, hlength⟩
      · exact .inl ⟨rest, ⟨hrest, by simpa using hlength⟩, rfl⟩

theorem sublistsOf_map (f : α → β) :
    (size : Nat) → (order : List α) →
      sublistsOf size (order.map f) = (sublistsOf size order).map (List.map f)
  | 0, _ => by simp [sublistsOf]
  | _ + 1, [] => by simp [sublistsOf]
  | size + 1, a :: order => by
    rw [List.map_cons, sublistsOf, sublistsOf, sublistsOf_map f size,
      sublistsOf_map f (size + 1)]
    simp [Function.comp_def]

/-- The sublists of a listing are its subsets. -/
theorem Listing.exists_sublist {order : List Int} {teams : Finset Int} (h : Listing order teams)
    (size : Nat) (set : Finset Int) :
    (∃ member ∈ sublistsOf size order, member.toFinset = set) ↔ set ∈ teams.powersetCard size := by
  simp only [mem_sublistsOf, Finset.mem_powersetCard]
  constructor
  · rintro ⟨member, ⟨hsub, hlength⟩, rfl⟩
    refine ⟨fun i hi => (h.mem_iff i).mp (hsub.subset (List.mem_toFinset.mp hi)), ?_⟩
    rw [List.toFinset_card_of_nodup (h.nodup.sublist hsub), hlength]
  · rintro ⟨hsub, hcard⟩
    have hset : (order.filter (· ∈ set)).toFinset = set := by
      ext i
      simp only [List.mem_toFinset, List.mem_filter, decide_eq_true_eq, h.mem_iff]
      exact ⟨fun hi => hi.2, fun hi => ⟨hsub hi, hi⟩⟩
    refine ⟨order.filter (· ∈ set), ⟨List.filter_sublist, ?_⟩, hset⟩
    rw [← List.toFinset_card_of_nodup (h.nodup.filter _), hset, hcard]

/-- The first numbers from one. -/
def places (count : Nat) : Finset Int :=
  ((List.range count).map fun i : Nat => ((i + 1 : Nat) : Int)).toFinset

@[simp] theorem mem_places {count : Nat} {place : Int} :
    place ∈ places count ↔ 1 ≤ place ∧ place ≤ count := by
  simp only [places, List.mem_toFinset, List.mem_map, List.mem_range]
  constructor
  · rintro ⟨i, hi, rfl⟩
    omega
  · exact fun h => ⟨(place - 1).toNat, by omega, by omega⟩

theorem forall_mem_places {count : Nat} {p : Int → Prop} :
    (∀ place ∈ places count, p place) ↔ ∀ i < count, p ((i + 1 : Nat) : Int) := by
  constructor
  · exact fun h i hi => h _ (mem_places.mpr (by omega))
  · intro h place hplace
    rw [mem_places] at hplace
    obtain ⟨i, rfl⟩ : ∃ i : Nat, place = ((i + 1 : Nat) : Int) := ⟨(place - 1).toNat, by omega⟩
    exact h i (by omega)

theorem SetTerm.lists_member {env : Env} {family : String} {members : List (List Int)}
    {index : Arith} {i : Nat}
    (h : env.families.lookup family = some (members.map (List.map Tuple.one)))
    (hindex : index.value? env = some (((i + 1 : Nat) : Int) : Rat)) (hi : i < members.length)
    (hnodup : members[i].Nodup) :
    (SetTerm.member family index).Lists env Tuple.one members[i].toFinset := by
  have hplace : (((i + 1 : Nat) : Int) : Rat).isInt ∧ (0 : Rat) < ((i + 1 : Nat) : Int) :=
    ⟨rfl, by positivity⟩
  refine ⟨members[i], Listing.toFinset hnodup, ?_⟩
  rw [SetTerm.tuples?, hindex]
  show (env.families.lookup family).bind _ = _
  rw [h, Option.bind_some, if_pos hplace, Rat.num_intCast]
  simp [hi]

theorem SetTerm.lists_indexset {env : Env} {family : String} {members : List (List Tuple)}
    (h : env.families.lookup family = some members) :
    (SetTerm.indexset family).Lists env Tuple.one (places members.length) := by
  let order := (List.range members.length).map fun i : Nat => ((i + 1 : Nat) : Int)
  have hnodup : order.Nodup := List.nodup_range.map fun i j h => by simpa using h
  refine ⟨order, Listing.toFinset hnodup, ?_⟩
  have hplaces : members.zipIdx.map (fun entry => [((entry.2 + 1 : Nat) : Rat)]) =
      order.map Tuple.one := by
    rw [List.map_map, List.range_eq_range', ← List.zipIdx_map_snd 0 members, List.map_map]
    rfl
  rw [SetTerm.tuples?, h, ← hplaces]
  rfl

end RoundRobin.Zimpl
