/-! Ids listed as a set: in ascending order and each once. The listing depends only on which ids
occur, since a strictly ascending list is determined by its members. -/

namespace RoundRobin

/-- Puts an id at its place in an ascending list that may hold it already. -/
def insertId (id : Int) : List Int → List Int
  | [] => [id]
  | x :: xs => if id < x then id :: x :: xs else if id = x then x :: xs else x :: insertId id xs

/-- The ids that occur in a list, in ascending order and each once. -/
def ascending (ids : List Int) : List Int := ids.foldr insertId []

@[simp] theorem mem_insertId {id x : Int} {xs : List Int} :
    x ∈ insertId id xs ↔ x = id ∨ x ∈ xs := by
  induction xs with
  | nil => simp [insertId]
  | cons y ys ih =>
    unfold insertId
    split
    · simp
    · split
      · simp_all
      · simp only [List.mem_cons, ih]
        exact or_left_comm

theorem pairwise_insertId {id : Int} {xs : List Int} (h : xs.Pairwise (· < ·)) :
    (insertId id xs).Pairwise (· < ·) := by
  induction xs with
  | nil => simp [insertId]
  | cons y ys ih =>
    obtain ⟨hy, hys⟩ := List.pairwise_cons.mp h
    unfold insertId
    split
    · refine List.pairwise_cons.mpr ⟨fun z hz => ?_, h⟩
      rcases List.mem_cons.mp hz with rfl | hz
      · assumption
      · have := hy z hz
        omega
    · split
      · exact h
      · refine List.pairwise_cons.mpr ⟨fun z hz => ?_, ih hys⟩
        rcases mem_insertId.mp hz with rfl | hz
        · omega
        · exact hy z hz

@[simp] theorem mem_ascending {x : Int} {ids : List Int} : x ∈ ascending ids ↔ x ∈ ids := by
  induction ids with
  | nil => simp [ascending]
  | cons y ys ih => simp_all [ascending]

theorem pairwise_ascending (ids : List Int) : (ascending ids).Pairwise (· < ·) := by
  induction ids with
  | nil => simp [ascending]
  | cons y ys ih => exact pairwise_insertId ih

/-- Strictly ascending lists with the same members are equal. -/
theorem eq_of_pairwise_of_mem_iff {xs ys : List Int} (hx : xs.Pairwise (· < ·))
    (hy : ys.Pairwise (· < ·)) (h : ∀ z, z ∈ xs ↔ z ∈ ys) : xs = ys := by
  induction xs generalizing ys with
  | nil =>
    cases ys with
    | nil => rfl
    | cons y ys => simpa using h y
  | cons x xs ih =>
    cases ys with
    | nil => simpa using h x
    | cons y ys =>
      obtain ⟨hx1, hx2⟩ := List.pairwise_cons.mp hx
      obtain ⟨hy1, hy2⟩ := List.pairwise_cons.mp hy
      have hxy : x = y := by
        rcases List.mem_cons.mp ((h x).mp (by simp)) with rfl | h1
        · rfl
        · rcases List.mem_cons.mp ((h y).mpr (by simp)) with rfl | h2
          · rfl
          · have := hx1 y h2
            have := hy1 x h1
            omega
      subst hxy
      congr 1
      refine ih hx2 hy2 fun z => ?_
      constructor
      · intro hz
        rcases List.mem_cons.mp ((h z).mp (List.mem_cons_of_mem _ hz)) with rfl | h1
        · exact absurd (hx1 z hz) (by omega)
        · exact h1
      · intro hz
        rcases List.mem_cons.mp ((h z).mpr (List.mem_cons_of_mem _ hz)) with rfl | h1
        · exact absurd (hy1 z hz) (by omega)
        · exact h1

/-- Only the set of the ids matters. -/
theorem ascending_eq_iff {xs ys : List Int} : ascending xs = ascending ys ↔ ∀ z, z ∈ xs ↔ z ∈ ys :=
  ⟨fun h z => by rw [← mem_ascending, h, mem_ascending], fun h =>
    eq_of_pairwise_of_mem_iff (pairwise_ascending xs) (pairwise_ascending ys) (by simpa using h)⟩

end RoundRobin
