import RoundRobin.Proofs.Meaning.Timetables

/-! The least violations of a season. No two soft rules give way by the same variable, and no rule
does so at two places, so all of them can give way by just what they are short of. -/

namespace RoundRobin

open Zimpl

/-- The subscripts of a violation that belongs to a rule alone. -/
def Place.subscripts : Place → Tuple
  | .whole | .below => []
  | .slot id => Tuple.one id
  | .pair teams => Tuple.two teams

theorem Place.eq_of_subscripts {a b : Place} (ha : a ≠ .below) (hb : b ≠ .below)
    (h : a.subscripts = b.subscripts) : a = b := by
  cases a <;> cases b <;> simp_all [Place.subscripts, Tuple.one, Tuple.two, Prod.ext_iff]

namespace Numbered

variable {t : Tournament} {options : Options} {rule : Numbered}

theorem violation_own (hkind : rule.rule.kind ∉ [Kind.ca1, .ca2, .ga1]) {place : Place}
    (hplace : place ∈ rule.rule.demand.places t options) :
    rule.violation place = (rule.violationName, place.subscripts) ∧ place ≠ .below := by
  cases hdemand : rule.rule.demand with
  | ca1 _ | ca2 _ | ga1 _ => exact absurd (by simp [Rule.kind, hdemand, Demand.kind]) hkind
  | ca3 cap =>
    rw [hdemand] at hplace
    obtain ⟨slot, -, rfl⟩ := Finset.mem_image.mp hplace
    exact ⟨rfl, by simp⟩
  | ca4 cap =>
    rw [hdemand] at hplace
    unfold Demand.places at hplace
    dsimp only at hplace
    split at hplace
    · obtain rfl := Finset.mem_singleton.mp hplace
      rw [violation, hdemand]
      exact ⟨rfl, by simp⟩
    · obtain ⟨slot, -, rfl⟩ := Finset.mem_image.mp hplace
      exact ⟨rfl, by simp⟩
  | se1 _ | fa2 _ =>
    rw [hdemand] at hplace
    obtain ⟨pair, -, rfl⟩ := Finset.mem_image.mp hplace
    exact ⟨rfl, by simp⟩
  | br1 _ | br2 _ =>
    rw [hdemand] at hplace
    obtain rfl := Finset.mem_singleton.mp hplace
    rw [violation, hdemand]
    exact ⟨rfl, by simp⟩

/-- The name of a violation starts with the stem of its kind. -/
theorem violation_eq_append {place : Place} (hplace : place ∈ rule.rule.demand.places t options) :
    ∃ rest, (rule.violation place).1 = rule.rule.kind.stem ++ rest := by
  by_cases hkind : rule.rule.kind ∈ [Kind.ca1, .ca2, .ga1]
  · rcases violation_shared hkind hplace with h | ⟨hga1, -, h⟩
    · exact ⟨"_viol", by rw [h]⟩
    · exact ⟨"_min_viol", by rw [h, hga1]; rfl⟩
  · exact ⟨_, by rw [(violation_own hkind hplace).1, violationName_eq]⟩

/-- A rule is known by its kind and its number, and a soft one by its place among those of its
kind. -/
theorem eq_of_same {a b : Numbered} (ha : a ∈ t.numbered) (hb : b ∈ t.numbered)
    (hkind : a.rule.kind = b.rule.kind) (h : a.number = b.number ∨
      a.rule.strength.isSoft = true ∧ b.rule.strength.isSoft = true ∧ a.softPlace = b.softPlace) :
    a = b := by
  have hpairwise := pairwise_allBehind [] t.rules
  have hall : ∀ a ∈ t.numbered, ∀ b ∈ t.numbered, a.rule.kind = b.rule.kind →
      (a.number = b.number ∨ a.rule.strength.isSoft = true ∧ b.rule.strength.isSoft = true ∧
        a.softPlace = b.softPlace) → a = b := by
    refine List.Pairwise.forall_of_forall_of_flip (fun _ _ _ _ => rfl) ?_ ?_
    · refine hpairwise.imp fun hlt hkind h => ?_
      rcases h with h | ⟨hsoft, -, h⟩
      · exact absurd h (hlt hkind).1.ne
      · exact absurd h ((hlt hkind).2 hsoft).ne
    · refine hpairwise.imp fun hlt hkind h => ?_
      rcases h with h | ⟨-, hsoft, h⟩
      · exact absurd h.symm (hlt hkind.symm).1.ne
      · exact absurd h.symm ((hlt hkind.symm).2 hsoft).ne
  exact hall a ha b hb hkind h

theorem shared_place_injective (hkind : rule.rule.kind ∈ [Kind.ca1, .ca2, .ga1]) {p q : Place}
    (hp : p ∈ rule.rule.demand.places t options) (hq : q ∈ rule.rule.demand.places t options)
    (h : rule.violation p = rule.violation q) : p = q := by
  cases hdemand : rule.rule.demand with
  | ca1 _ | ca2 _ =>
    rw [hdemand] at hp hq
    exact (Finset.mem_singleton.mp hp).trans (Finset.mem_singleton.mp hq).symm
  | ga1 bound =>
    rw [hdemand] at hp hq
    rw [violation_ga1 hdemand hp, violation_ga1 hdemand hq] at h
    obtain ⟨hname, -⟩ := Prod.mk.inj h
    rcases whole_or_below hp with rfl | rfl <;> rcases whole_or_below hq with rfl | rfl
    · rfl
    · exact absurd hname (by decide)
    · exact absurd hname (by decide)
    · rfl
  | _ => exact absurd hkind (by simp [Rule.kind, hdemand, Demand.kind])

/-- A violation is that of one rule at one place. -/
theorem violation_injective {a b : Numbered} (ha : a ∈ t.numbered) (hb : b ∈ t.numbered)
    (hsoft : a.rule.strength.isSoft = true) (hsoft' : b.rule.strength.isSoft = true)
    {p q : Place} (hp : p ∈ a.rule.demand.places t options)
    (hq : q ∈ b.rule.demand.places t options) (h : a.violation p = b.violation q) :
    a = b ∧ p = q := by
  have hkind : a.rule.kind = b.rule.kind := by
    by_contra hne
    obtain ⟨rest, hrest⟩ := violation_eq_append hp
    obtain ⟨rest', hrest'⟩ := violation_eq_append hq
    exact (Kind.apart_stem hne).append_ne (hrest.symm.trans ((congrArg Prod.fst h).trans hrest'))
  by_cases hshared : a.rule.kind ∈ [Kind.ca1, .ca2, .ga1]
  · have hplace : ∀ {rule : Numbered} {place}, rule.rule.kind ∈ [Kind.ca1, .ca2, .ga1] →
        place ∈ rule.rule.demand.places t options →
        (rule.violation place).2 = Tuple.one rule.softPlace := fun hkind hplace => by
      rcases violation_shared hkind hplace with h | ⟨-, -, h⟩ <;> rw [h]
    have hsame := (hplace hshared hp).symm.trans ((congrArg Prod.snd h).trans
      (hplace (hkind ▸ hshared) hq))
    obtain rfl := eq_of_same ha hb hkind
      (.inr ⟨hsoft, hsoft', Int.ofNat_inj.mp (Tuple.one_injective hsame)⟩)
    exact ⟨rfl, shared_place_injective hshared hp hq h⟩
  · obtain ⟨hown, hbelow⟩ := violation_own hshared hp
    obtain ⟨hown', hbelow'⟩ := violation_own (hkind ▸ hshared) hq
    rw [hown, hown', Prod.mk.injEq] at h
    obtain ⟨-, hnumber⟩ := violationName_injective h.1
    exact ⟨eq_of_same ha hb hkind (.inl hnumber), Place.eq_of_subscripts hbelow hbelow' h.2⟩

/-- A rule that counts no slot with a break is short of nothing. -/
theorem short_of_isVoid {tally : Tally} (hvoid : rule.isVoid = true) (place : Place) :
    rule.rule.demand.short t tally options place = 0 := by
  refine le_antisymm ?_ (Demand.short_nonneg _ _)
  unfold isVoid at hvoid
  cases hdemand : rule.rule.demand with
  | br1 breaks =>
    rw [hdemand] at hvoid
    refine worst_le_iff.mpr ⟨le_rfl, fun team _ => ?_⟩
    rw [breaks.breaks_eq_zero (of_decide_eq_true hvoid), zero_sub, neg_nonpos]
    exact Nat.cast_nonneg _
  | br2 breaks =>
    rw [hdemand] at hvoid
    refine max_le le_rfl ?_
    rw [breaks.breaks_eq_zero (of_decide_eq_true hvoid), zero_sub, neg_nonpos]
    exact Nat.cast_nonneg _
  | _ =>
    rw [hdemand] at hvoid
    exact nomatch hvoid

end Numbered

namespace Tournament

variable {t : Tournament} {options : Options} {rule : Numbered} {place : Place}

/-- The places at which the soft rules of a tournament give way. -/
def SoftPlace (t : Tournament) (options : Options) : Type :=
  {q : Numbered × Place // q.1 ∈ t.numbered ∧ q.1.rule.strength.isSoft = true ∧
    q.2 ∈ q.1.rule.demand.places t options}

def SoftPlace.violation (q : SoftPlace t options) : String × Tuple := q.1.1.violation q.1.2

theorem SoftPlace.violation_injective :
    Function.Injective (SoftPlace.violation : SoftPlace t options → _) := by
  rintro ⟨⟨a, p⟩, ha, hsoft, hp⟩ ⟨⟨b, q⟩, hb, hsoft', hq⟩ h
  obtain ⟨rfl, rfl⟩ := Numbered.violation_injective ha hb hsoft hsoft' hp hq h
  rfl

end Tournament

namespace Timetable

variable {plays : Timetable} {t : Tournament} {options : Options} {rule : Numbered} {place : Place}

/-- The counts of a timetable, with violations of just what its rules are short of. -/
noncomputable def leastValues (plays : Timetable) (t : Tournament)
(options : Options) : Assignment :=
  fun name subscripts =>
    if name ∈ ["x", "bh", "ba", "hg"] then (plays.tally t).assignment name subscripts
    else Function.extend Tournament.SoftPlace.violation
      (fun q : t.SoftPlace options => q.1.1.rule.demand.short t (plays.tally t) options q.1.2) 0
      (name, subscripts)

theorem shows_leastValues (plays : Timetable) (t : Tournament) (options : Options) :
    (plays.leastValues t options).Shows t (plays.tally t) where
  game _ _ _ _ := if_pos (by decide)
  homeBreak _ _ _ _ _ := if_pos (by decide)
  awayBreak _ _ _ _ _ := if_pos (by decide)
  homeGames _ _ _ _ _ := if_pos (by decide)

theorem leastValues_nonneg {name : String} (hname : name ∉ ["x", "bh", "ba", "hg"])
    (subscripts : Tuple) : 0 ≤ plays.leastValues t options name subscripts := by
  rw [leastValues, if_neg hname]
  by_cases h : ∃ q : t.SoftPlace options, q.violation = (name, subscripts)
  · obtain ⟨q, hq⟩ := h
    rw [← hq, Tournament.SoftPlace.violation_injective.extend_apply]
    exact Demand.short_nonneg _ _
  · rw [Function.extend_apply' _ _ _ h]
    exact le_rfl

theorem leastValues_violation (hmem : rule ∈ t.numbered)
    (hsoft : rule.rule.strength.isSoft = true)
    (hplace : place ∈ rule.rule.demand.places t options) :
    plays.leastValues t options (rule.violation place).1 (rule.violation place).2 =
      rule.rule.demand.short t (plays.tally t) options place := by
  have hname : (rule.violation place).1 ∉ ["x", "bh", "ba", "hg"] := fun h => by
    obtain ⟨rest, hrest⟩ := Numbered.violation_eq_append hplace
    have hapart : ∀ kind : Kind, ∀ name ∈ ["x", "bh", "ba", "hg"],
        ¬ kind.stem.toList <+: name.toList := fun kind => by
      cases kind <;> decide
    exact ne_append (hapart rule.rule.kind _ h) hrest
  rw [leastValues, if_neg hname]
  exact Tournament.SoftPlace.violation_injective.extend_apply _ _
    (⟨(rule, place), hmem, hsoft, hplace⟩ : t.SoftPlace options)

/-- Each soft rule gives way by what it is short of. -/
theorem slack_leastValues (hmem : rule ∈ t.numbered) (hsoft : rule.rule.strength.isSoft = true)
    (hplace : place ∈ rule.rule.demand.places t options) :
    rule.slack (plays.leastValues t options) place =
      rule.rule.demand.short t (plays.tally t) options place := by
  cases hvoid : rule.isVoid with
  | true => rw [Numbered.slack_eq_zero hvoid, Numbered.short_of_isVoid hvoid]
  | false =>
    rw [Numbered.slack_eq hvoid, ← leastValues_violation hmem hsoft hplace]
    cases hstrength : rule.rule.strength with
    | hard =>
      rw [hstrength] at hsoft
      exact nomatch hsoft
    | soft penalty => rfl

end Timetable

end RoundRobin
