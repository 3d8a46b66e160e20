import RoundRobin.Proofs.Season.Counting

/-! Where rules may be violated. At each of its places a rule is short of some violation, and it is
kept if and only if it is short of none. Its excess is what it is short of at all of them
together. -/

namespace RoundRobin

open Finset

inductive Place where
  | whole
  /-- The lower bound of a rule that has both. -/
  | below
  | slot (slot : Int)
  | pair (teams : Int × Int)
deriving DecidableEq

section Shortage

variable (t : Tournament) (tally : Tally) (options : Options)

/-- The places at which a rule has a violation, if it is soft. -/
def Demand.places : Demand → Finset Place
  | .ca3 cap => (cap.ends t).image .slot
  | .ca4 cap => match cap.scope with
    | .global => {.whole}
    | .every => cap.slots.toFinset.image .slot
  | .ga1 bound => match options.minPenalty with
    | .shared => {.whole}
    | .separate => if bound.min = 0 then {.whole} else {.whole, .below}
  | .se1 rule => (unorderedPairs rule.teams).image .pair
  | .fa2 rule => (unorderedPairs rule.teams).image .pair
  | .ca1 _ | .ca2 _ | .br1 _ | .br2 _ => {.whole}

/-- The least violation at a place with which a rule is kept there. -/
def Demand.short : Demand → Place → Rat
  | .ca1 cap => fun _ => worst cap.teams.toFinset fun team => cap.games t tally team - cap.max
  | .ca2 cap => fun _ => worst cap.teams.toFinset fun team => cap.games tally team - cap.max
  | .ca3 cap => fun
    | .slot last => worst cap.teams.toFinset fun team => cap.games t tally team last - cap.max
    | _ => 0
  | .ca4 cap => fun
    | .slot slot => max 0 (cap.gamesIn tally slot - cap.max)
    | _ => max 0 (cap.games tally - cap.max)
  | .ga1 bound => fun
    | .below => max 0 (bound.min - bound.games tally)
    | _ => match options.minPenalty with
      | .shared => max 0 (max (bound.games tally - bound.max) (bound.min - bound.games tally))
      | .separate => max 0 (bound.games tally - bound.max)
  | .se1 rule => fun
    | .pair pair => max 0 (rule.min + 1 - Separation.distance t tally pair)
    | _ => 0
  | .br1 rule => fun _ =>
      worst rule.teams.toFinset fun team => rule.breaks tally team - rule.limit
  | .br2 rule => fun _ => max 0 (rule.breaks tally - rule.limit)
  | .fa2 rule => fun
    | .pair pair =>
      worst rule.slots.toFinset fun slot => HomeBalance.lead tally pair slot - rule.limit
    | _ => 0

/-- The place whose violation the lower bound of a rule on meetings gives way by. -/
def MinPenalty.place : MinPenalty → Place
  | .shared => .whole
  | .separate => .below

/-- What a rule asks where its bounds give way by some slack at each place. -/
def Demand.KeptWithin (slack : Place → Rat) : Demand → Prop
  | .ca1 cap => ∀ team ∈ cap.teams, cap.games t tally team ≤ cap.max + slack .whole
  | .ca2 cap => ∀ team ∈ cap.teams, cap.games tally team ≤ cap.max + slack .whole
  | .ca3 cap => ∀ team ∈ cap.teams, ∀ last ∈ cap.ends t,
      cap.games t tally team last ≤ cap.max + slack (.slot last)
  | .ca4 cap => match cap.scope with
    | .global => cap.games tally ≤ cap.max + slack .whole
    | .every => ∀ slot ∈ cap.slots, cap.gamesIn tally slot ≤ cap.max + slack (.slot slot)
  | .ga1 bound => bound.games tally ≤ bound.max + slack .whole ∧
      (bound.min ≠ 0 → bound.min - slack options.minPenalty.place ≤ bound.games tally)
  | .se1 rule => ∀ pair ∈ unorderedPairs rule.teams,
      rule.min + 1 - slack (.pair pair) ≤ Separation.distance t tally pair
  | .br1 rule => ∀ team ∈ rule.teams, rule.breaks tally team ≤ rule.limit + slack .whole
  | .br2 rule => rule.breaks tally ≤ rule.limit + slack .whole
  | .fa2 rule => ∀ pair ∈ unorderedPairs rule.teams, ∀ slot ∈ rule.slots,
      HomeBalance.lead tally pair slot ≤ rule.limit + slack (.pair pair)

end Shortage

variable {t : Tournament} {tally : Tally} {options : Options}

theorem worst_le_iff {s : Finset ι} {f : ι → Rat} {c : Rat} :
    worst s f ≤ c ↔ 0 ≤ c ∧ ∀ i ∈ s, f i ≤ c :=
  fold_max_le c

theorem worst_nonneg (s : Finset ι) (f : ι → Rat) : 0 ≤ worst s f := (worst_le_iff.mp le_rfl).1

theorem whole_or_below {bound : MeetingBound} {place : Place}
    (h : place ∈ (Demand.ga1 bound).places t options) : place = .whole ∨ place = .below := by
  unfold Demand.places at h
  dsimp only at h
  split at h
  · exact .inl (mem_singleton.mp h)
  · split at h
    · exact .inl (mem_singleton.mp h)
    · simpa using h

/-- The lower bound of a rule has a place of its own only where its violation is separate. -/
theorem separate_of_below {bound : MeetingBound}
    (h : Place.below ∈ (Demand.ga1 bound).places t options) : options.minPenalty = .separate := by
  cases hpenalty : options.minPenalty with
  | shared => simp [Demand.places, hpenalty] at h
  | separate => rfl

/-- Rules on meetings count no negative number of games. -/
def Demand.Counted (tally : Tally) : Demand → Prop
  | .ga1 bound => 0 ≤ bound.games tally
  | _ => True

theorem Demand.short_nonneg (demand : Demand) (place : Place) :
    0 ≤ demand.short t tally options place := by
  cases demand with
  | ca1 cap => exact worst_nonneg _ _
  | ca2 cap => exact worst_nonneg _ _
  | ca3 cap => cases place with
    | slot last => exact worst_nonneg _ _
    | _ => exact le_rfl
  | ca4 cap => cases place <;> exact le_max_left _ _
  | ga1 bound => cases place with
    | below => exact le_max_left _ _
    | _ => cases hpenalty : options.minPenalty <;> simp [Demand.short, hpenalty]
  | se1 rule => cases place with
    | pair pair => exact le_max_left _ _
    | _ => exact le_rfl
  | br1 rule => exact worst_nonneg _ _
  | br2 rule => exact le_max_left _ _
  | fa2 rule => cases place with
    | pair pair => exact worst_nonneg _ _
    | _ => exact le_rfl

theorem Demand.excess_eq_sum {demand : Demand} (h : demand.Counted tally) :
    demand.excess t tally options =
      ∑ place ∈ demand.places t options, demand.short t tally options place := by
  cases demand with
  | ca1 cap => simp [Demand.excess, Demand.places, Demand.short]
  | ca2 cap => simp [Demand.excess, Demand.places, Demand.short]
  | ca3 cap => simp [Demand.excess, Demand.places, Demand.short]
  | ca4 cap =>
    cases hscope : cap.scope with
    | global => simp [Demand.excess, Demand.places, Demand.short, hscope]
    | every => simp [Demand.excess, Demand.places, Demand.short, hscope]
  | ga1 bound =>
    have hgames : 0 ≤ bound.games tally := h
    cases hpenalty : options.minPenalty with
    | shared => simp [Demand.excess, Demand.places, Demand.short, hpenalty]
    | separate =>
      by_cases hmin : bound.min = 0
      · simp [Demand.excess, Demand.places, Demand.short, hpenalty, hmin, hgames]
      · simp [Demand.excess, Demand.places, Demand.short, hpenalty, hmin]
  | se1 rule => simp [Demand.excess, Demand.places, Demand.short]
  | br1 rule => simp [Demand.excess, Demand.places, Demand.short]
  | br2 rule => simp [Demand.excess, Demand.places, Demand.short]
  | fa2 rule => simp [Demand.excess, Demand.places, Demand.short]

/-- The slack that keeps a rule is what it is short of, or more. -/
theorem Demand.short_le_iff {demand : Demand} (h : demand.Counted tally) {slack : Place → Rat} :
    (∀ place ∈ demand.places t options, demand.short t tally options place ≤ slack place) ↔
      (∀ place ∈ demand.places t options, 0 ≤ slack place) ∧
        demand.KeptWithin t tally options slack := by
  cases demand with
  | ca1 cap => simp [Demand.KeptWithin, Demand.places, Demand.short, worst_le_iff, add_comm]
  | ca2 cap => simp [Demand.KeptWithin, Demand.places, Demand.short, worst_le_iff, add_comm]
  | ca3 cap =>
    simp only [Demand.KeptWithin, Demand.places, Demand.short, worst_le_iff, forall_mem_image,
      List.mem_toFinset, sub_le_iff_le_add']
    exact ⟨fun h =>
      ⟨fun last hlast => (h hlast).1, fun team hteam last hlast => (h hlast).2 team hteam⟩,
      fun h last hlast => ⟨h.1 hlast, fun team hteam => h.2 team hteam last hlast⟩⟩
  | ca4 cap =>
    cases hscope : cap.scope with
    | global => simp [Demand.KeptWithin, Demand.places, Demand.short, hscope, add_comm]
    | every => simp [Demand.KeptWithin, Demand.places, Demand.short, hscope, add_comm, forall_and]
  | ga1 bound =>
    have hgames : 0 ≤ bound.games tally := h
    cases hpenalty : options.minPenalty with
    | shared =>
      simp only [Demand.KeptWithin, Demand.places, Demand.short, hpenalty, MinPenalty.place,
        mem_singleton, forall_eq, max_le_iff, sub_le_iff_le_add']
      refine and_congr_right fun hslack => and_congr_right fun _ => ?_
      by_cases hmin : bound.min = 0
      · simpa [hmin] using add_nonneg hgames hslack
      · simp [hmin, add_comm]
    | separate =>
      by_cases hmin : bound.min = 0
      · simp [Demand.KeptWithin, Demand.places, Demand.short, hpenalty, hmin, add_comm]
      · simp [Demand.KeptWithin, Demand.places, Demand.short, hpenalty, hmin,
          MinPenalty.place, add_comm]
        exact and_and_and_comm
  | se1 rule =>
    simp only [Demand.KeptWithin, Demand.places, Demand.short, forall_mem_image, max_le_iff,
      sub_le_comm, forall_and]
  | br1 rule => simp [Demand.KeptWithin, Demand.places, Demand.short, worst_le_iff, add_comm]
  | br2 rule => simp [Demand.KeptWithin, Demand.places, Demand.short, add_comm]
  | fa2 rule =>
    simp only [Demand.KeptWithin, Demand.places, Demand.short, worst_le_iff, forall_mem_image,
      List.mem_toFinset, sub_le_iff_le_add', forall_and]

theorem Demand.keptWithin_zero {demand : Demand} (h : demand.Counted tally) :
    demand.KeptWithin t tally options (fun _ => 0) ↔ demand.Kept t tally := by
  cases demand with
  | ca4 cap => cases hscope : cap.scope <;> simp [Demand.KeptWithin, Demand.Kept, hscope]
  | ga1 bound =>
    have hgames : 0 ≤ bound.games tally := h
    by_cases hmin : bound.min = 0
    · simp [Demand.KeptWithin, Demand.Kept, hmin, hgames]
    · simp [Demand.KeptWithin, Demand.Kept, hmin, and_comm]
  | _ => simp [Demand.KeptWithin, Demand.Kept]

/-- A rule is kept if and only if it is short of no violation. -/
theorem Demand.kept_iff {demand : Demand} (h : demand.Counted tally) :
    demand.Kept t tally ↔
      ∀ place ∈ demand.places t options, demand.short t tally options place ≤ 0 := by
  have hzero : demand.KeptWithin t tally options (fun _ => 0) ↔ demand.Kept t tally :=
    Demand.keptWithin_zero h
  rw [← hzero]
  exact (and_iff_right fun _ _ => le_rfl).symm.trans (Demand.short_le_iff h).symm

theorem worst_mono {s : Finset ι} {f g : ι → Rat} (h : ∀ i ∈ s, f i ≤ g i) :
    worst s f ≤ worst s g :=
  worst_le_iff.mpr ⟨worst_nonneg s g, fun i hi => (h i hi).trans ((worst_le_iff.mp le_rfl).2 i hi)⟩

theorem Tally.breaks_mono {more : Tally} {side : Side} {team slot : Int}
    (hhome : tally.homeBreak team slot ≤ more.homeBreak team slot)
    (haway : tally.awayBreak team slot ≤ more.awayBreak team slot) :
    tally.breaks side team slot ≤ more.breaks side team slot := by
  unfold Tally.breaks
  split_ifs <;> linarith

/-- A slot behind another that is listed is not the first of the season. -/
theorem GroupBreaks.inner_subset {rule : GroupBreaks}
    (hslots : ∀ slot ∈ rule.slots, slot ∈ t.slotSet) :
    rule.inner ⊆ t.slotSet.erase 0 := fun slot hslot => by
  rw [GroupBreaks.inner, mem_filter, List.mem_toFinset] at hslot
  obtain ⟨hmem, earlier, hearlier, hlt⟩ := hslot
  have hfirst := Tournament.mem_slotSet.mp (hslots earlier (List.mem_toFinset.mp hearlier))
  exact mem_erase.mpr ⟨by omega, hslots slot hmem⟩

section More

variable {more : Tally} (hbreaks : ∀ side, ∀ team ∈ t.teamSet, ∀ slot ∈ t.slotSet.erase 0,
  tally.breaks side team slot ≤ more.breaks side team slot)
include hbreaks

theorem TeamBreaks.breaks_mono {rule : TeamBreaks} (hslots : ∀ slot ∈ rule.slots, slot ∈ t.slotSet)
    {team : Int} (hteam : team ∈ t.teamSet) : rule.breaks tally team ≤ rule.breaks more team :=
  sum_le_sum fun slot hslot => by
    obtain ⟨hne, hmem⟩ := mem_erase.mp hslot
    exact hbreaks rule.side team hteam slot
      (mem_erase.mpr ⟨hne, hslots slot (List.mem_toFinset.mp hmem)⟩)

theorem GroupBreaks.breaks_mono {rule : GroupBreaks}
    (hteams : ∀ team ∈ rule.teams, team ∈ t.teamSet)
    (hslots : ∀ slot ∈ rule.slots, slot ∈ t.slotSet) : rule.breaks tally ≤ rule.breaks more :=
  sum_le_sum fun team hteam => sum_le_sum fun slot hslot =>
    hbreaks .both team (hteams team (List.mem_toFinset.mp hteam)) slot
      (GroupBreaks.inner_subset hslots hslot)

/-- A rule that is kept with more breaks is kept. -/
theorem Demand.keptWithin_mono {demand : Demand} (hkind : demand.kind = .br1 ∨ demand.kind = .br2)
    (hteams : ∀ id ∈ demand.teamIds, id ∈ t.teamSet)
    (hslots : ∀ id ∈ demand.slotIds, id ∈ t.slotSet)
    {slack : Place → Rat} (h : demand.KeptWithin t more options slack) :
    demand.KeptWithin t tally options slack := by
  cases demand with
  | br1 rule =>
    exact fun team hteam =>
      (rule.breaks_mono hbreaks hslots (hteams team hteam)).trans (h team hteam)
  | br2 rule => exact (rule.breaks_mono hbreaks hteams hslots).trans h
  | _ => simp [Demand.kind] at hkind

/-- More breaks leave a rule short of more. -/
theorem Demand.short_mono {demand : Demand} (hgame : tally.game = more.game)
    (hhomeGames : tally.homeGames = more.homeGames) (hteams : ∀ id ∈ demand.teamIds, id ∈ t.teamSet)
    (hslots : ∀ id ∈ demand.slotIds, id ∈ t.slotSet)
    (place : Place) : demand.short t tally options place ≤ demand.short t more options place := by
  cases demand with
  | br1 rule =>
    exact worst_mono fun team hteam => sub_le_sub_right
      (rule.breaks_mono hbreaks hslots (hteams team (List.mem_toFinset.mp hteam))) _
  | br2 rule =>
    exact max_le_max le_rfl (sub_le_sub_right (rule.breaks_mono hbreaks hteams hslots) _)
  | _ =>
    obtain ⟨game, homeBreak, awayBreak, homeGames⟩ := tally
    obtain ⟨game', homeBreak', awayBreak', homeGames'⟩ := more
    obtain rfl : game = game' := hgame
    obtain rfl : homeGames = homeGames' := hhomeGames
    exact le_rfl

end More

end RoundRobin
