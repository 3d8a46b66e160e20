import Mathlib.Data.List.Forall2

/-! Steps that can fail, one after another and one for each item of a list. -/

namespace RoundRobin

universe u v w

section Related

variable {α : Type u} {β : Type v}

theorem exists_mem_of_forall₂ {R : α → β → Prop} {as : List α} {bs : List β}
    (h : List.Forall₂ R as bs) : ∀ a ∈ as, ∃ b ∈ bs, R a b := by
  induction h with
  | nil => exact nofun
  | cons hab _ ih =>
    intro a ha
    rcases List.mem_cons.mp ha with rfl | ha
    · exact ⟨_, .head _, hab⟩
    · obtain ⟨b, hb, hab⟩ := ih a ha
      exact ⟨b, .tail _ hb, hab⟩

theorem map_eq_of_forall₂ {R : α → α → Prop} {f : α → β} {as bs : List α}
    (hf : ∀ a b, R a b → f a = f b) (h : List.Forall₂ R as bs) : as.map f = bs.map f := by
  induction h with
  | nil => rfl
  | cons hab _ ih => rw [List.map_cons, List.map_cons, hf _ _ hab, ih]

end Related

section Except

variable {ε : Type u} {α β : Type v} {ι : Type w}

/-- Of two steps, each has to succeed. -/
theorem bind_eq_ok_iff {x : Except ε α} {f : α → Except ε β} {b : β} :
    x >>= f = .ok b ↔ ∃ a, x = .ok a ∧ f a = .ok b := by
  cases x with
  | error e => simp [bind, Except.bind]
  | ok a => simp [bind, Except.bind]

theorem bind_eq_ok {x : Except ε α} {f : α → Except ε β} {b : β} (h : x >>= f = .ok b) :
    ∃ a, x = .ok a ∧ f a = .ok b :=
  bind_eq_ok_iff.mp h

/-- Of two steps, the first or the second one fails. -/
theorem bind_eq_error_iff {x : Except ε α} {f : α → Except ε β} {e : ε} :
    x >>= f = .error e ↔ x = .error e ∨ ∃ a, x = .ok a ∧ f a = .error e := by
  cases x with
  | error e' => simp [bind, Except.bind]
  | ok a => simp [bind, Except.bind]

theorem pure_eq_ok_iff {a b : α} : (pure a : Except ε α) = .ok b ↔ a = b := by
  simp [pure, Except.pure]

theorem map_eq_ok_iff {x : Except ε α} {f : α → β} {b : β} :
    f <$> x = .ok b ↔ ∃ a, x = .ok a ∧ f a = b := by
  cases x with
  | error e => simp [Functor.map, Except.map]
  | ok a => simp [Functor.map, Except.map]

theorem discard_eq_ok_iff {α : Type} {x : Except ε α} {done : PUnit} :
    discard x = .ok done ↔ ∃ a, x = .ok a := by
  show Function.const α PUnit.unit <$> x = .ok done ↔ ∃ a, x = .ok a
  simp [map_eq_ok_iff]

/-- A step fails unless it succeeds. -/
theorem exists_error_iff {x : Except ε α} : (∃ e, x = .error e) ↔ ¬ ∃ a, x = .ok a := by
  cases x with
  | error e => simp
  | ok a => simp

theorem eq_ok_of_toOption {x : Except ε α} {a : α} (h : x.toOption = some a) : x = .ok a := by
  cases x with
  | error e => exact nomatch h
  | ok b => exact congrArg _ (Option.some.inj h)

/-- A step over a list succeeds if it does at each item. -/
theorem mapM_eq_ok_iff {f : ι → Except ε β} {items : List ι} {results : List β} :
    items.mapM f = .ok results ↔
      List.Forall₂ (fun result item => f item = .ok result) results items := by
  induction items generalizing results with
  | nil => cases results <;> simp [List.mapM_nil, pure, Except.pure]
  | cons item items ih =>
    simp only [List.mapM_cons, bind_eq_ok_iff, pure_eq_ok_iff, List.forall₂_cons_right_iff, ih]
    constructor
    · rintro ⟨first, hfirst, rest, hrest, rfl⟩
      exact ⟨first, rest, hfirst, hrest, rfl⟩
    · rintro ⟨first, rest, hfirst, hrest, rfl⟩
      exact ⟨first, hfirst, rest, hrest, rfl⟩

theorem exists_of_mem_mapM {f : ι → Except ε β} {items : List ι} {results : List β}
    (h : items.mapM f = .ok results) : ∀ b ∈ results, ∃ a ∈ items, f a = .ok b :=
  exists_mem_of_forall₂ (mapM_eq_ok_iff.mp h)

theorem of_forM_eq_ok {f : ι → Except ε Unit} :
    {items : List ι} → items.forM f = .ok () → ∀ a ∈ items, f a = .ok ()
  | [], _, _, h => nomatch h
  | first :: items, h, a, ha => by
    obtain ⟨⟨⟩, hfirst, hrest⟩ := bind_eq_ok h
    rcases List.mem_cons.mp ha with rfl | ha
    · exact hfirst
    · exact of_forM_eq_ok hrest a ha

theorem forM_eq_ok {f : ι → Except ε Unit} :
    {items : List ι} → (∀ a ∈ items, f a = .ok ()) → items.forM f = .ok ()
  | [], _ => rfl
  | first :: items, h => by
    obtain ⟨hfirst, hrest⟩ := List.forall_mem_cons.mp h
    show (f first >>= fun _ => items.forM f) = .ok ()
    rw [hfirst]
    exact forM_eq_ok hrest

/-- Steps over related lists have the same result if they do at related items. -/
theorem forM_eq_of_forall₂ {R : ι → ι → Prop} {f : ι → Except ε Unit} {as bs : List ι}
    (hf : ∀ a b, R a b → f a = f b) (h : List.Forall₂ R as bs) : as.forM f = bs.forM f := by
  induction h with
  | nil => rfl
  | @cons a b as bs hab _ ih =>
    show (f a >>= fun _ => as.forM f) = f b >>= fun _ => bs.forM f
    rw [hf a b hab, ih]

theorem mapM_eq_of_forall₂ {R : ι → ι → Prop} {f : ι → Except ε β} {as bs : List ι}
    (hf : ∀ a b, R a b → f a = f b) (h : List.Forall₂ R as bs) : as.mapM f = bs.mapM f := by
  induction h with
  | nil => rfl
  | cons hab _ ih => rw [List.mapM_cons, List.mapM_cons, hf _ _ hab, ih]

end Except

section Option

variable {α : Type u} {β : Type v} {step : α → Option β} {items : List α} {results : List β}

theorem mapM_eq_some_iff : items.mapM step = some results ↔
    List.Forall₂ (fun result item => step item = some result) results items := by
  induction items generalizing results with
  | nil => cases results <;> simp [List.mapM_nil]
  | cons item items ih =>
    simp only [List.mapM_cons, Option.bind_eq_bind, Option.bind_eq_some_iff, Option.pure_def,
      Option.some.injEq, List.forall₂_cons_right_iff, ih]
    constructor
    · rintro ⟨first, hfirst, rest, hrest, rfl⟩
      exact ⟨first, rest, hfirst, hrest, rfl⟩
    · rintro ⟨first, rest, hfirst, hrest, rfl⟩
      exact ⟨first, hfirst, rest, hrest, rfl⟩

/-- Each result of a map comes from an item. -/
theorem exists_of_mem_mapM_some (h : items.mapM step = some results) :
    ∀ b ∈ results, ∃ a ∈ items, step a = some b :=
  exists_mem_of_forall₂ (mapM_eq_some_iff.mp h)

/-- A map that succeeds does so at each item. -/
theorem exists_eq_some_of_mapM (h : items.mapM step = some results) :
    ∀ a ∈ items, ∃ b, step a = some b := by
  intro a ha
  obtain ⟨b, -, hb⟩ := exists_mem_of_forall₂ (mapM_eq_some_iff.mp h).flip a ha
  exact ⟨b, hb⟩

/-- A map that never fails. -/
theorem mapM_total {result : α → β} (h : ∀ item ∈ items, step item = some (result item)) :
    items.mapM step = some (items.map result) := by
  rw [mapM_eq_some_iff, List.forall₂_map_left_iff, List.forall₂_same]
  exact h

end Option

end RoundRobin
