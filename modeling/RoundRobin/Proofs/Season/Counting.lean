import RoundRobin.Proofs.Reading

/-! Counting the games of a season in two ways. Every team plays once in each slot, so a slot has
half as many games as there are teams; every ordered pair plays once, so there are twice as many
slots as each team has opponents. Within an odd set of teams someone has to play a team outside
it. -/

namespace RoundRobin

open Finset

theorem sum_offDiag (teams : Finset Int) (f : Int → Int → Rat) :
    ∑ p ∈ teams.offDiag, f p.1 p.2 = ∑ a ∈ teams, ∑ b ∈ teams.erase a, f a b := by
  refine Finset.sum_finset_product teams.offDiag teams (fun a => teams.erase a) fun p => ?_
  simp only [mem_offDiag, mem_erase]
  exact ⟨fun h => ⟨h.1, h.2.2.symm, h.2.1⟩, fun h => ⟨h.1, h.2.2, h.2.1.symm⟩⟩

theorem sum_offDiag_swap (teams : Finset Int) (f : Int → Int → Rat) :
    ∑ p ∈ teams.offDiag, f p.1 p.2 = ∑ a ∈ teams, ∑ b ∈ teams.erase a, f b a := by
  refine Finset.sum_finset_product_right teams.offDiag teams (fun a => teams.erase a) fun p => ?_
  simp only [mem_offDiag, mem_erase]
  exact ⟨fun h => ⟨h.2.1, h.2.2, h.1⟩, fun h => ⟨h.2.2, h.1, h.2.1⟩⟩

/-- A slot in which every team plays once has half as many games as there are teams. -/
theorem sum_offDiag_of_daily {teams : Finset Int} (game : Int → Int → Rat)
    (h : ∀ team ∈ teams, ∑ other ∈ teams.erase team, game team other
      + ∑ other ∈ teams.erase team, game other team = 1) :
    ∑ p ∈ teams.offDiag, game p.1 p.2 = teams.card / 2 := by
  have htwice :
      ∑ p ∈ teams.offDiag, game p.1 p.2 + ∑ p ∈ teams.offDiag, game p.1 p.2 = teams.card := by
    calc ∑ p ∈ teams.offDiag, game p.1 p.2 + ∑ p ∈ teams.offDiag, game p.1 p.2
        = ∑ a ∈ teams, (∑ b ∈ teams.erase a, game a b + ∑ b ∈ teams.erase a, game b a) := by
          rw [sum_add_distrib, ← sum_offDiag teams game, ← sum_offDiag_swap teams game]
      _ = ∑ a ∈ teams, 1 := sum_congr rfl h
      _ = teams.card := by simp
  linarith

/-- The games of the teams of a set split into those among them and those with others. -/
theorem card_eq_inner_add_cut {teams set : Finset Int} (hset : set ⊆ teams)
    (game : Int → Int → Rat) (h : ∀ team ∈ teams, ∑ other ∈ teams.erase team, game team other
      + ∑ other ∈ teams.erase team, game other team = 1) :
    (set.card : Rat) = 2 * ∑ p ∈ set.offDiag, game p.1 p.2
      + ∑ p ∈ set ×ˢ (teams \ set), (game p.1 p.2 + game p.2 p.1) := by
  have hsplit : ∀ f : Int → Int → Rat, ∀ a ∈ set,
      ∑ b ∈ teams.erase a, f a b = ∑ b ∈ set.erase a, f a b + ∑ b ∈ teams \ set, f a b :=
    fun f a ha => by
      have hunion : teams.erase a = set.erase a ∪ (teams \ set) := by
        ext b
        simp only [mem_union, mem_erase, mem_sdiff]
        by_cases hb : b ∈ set
        · simp [hb, hset hb]
        · have : b ≠ a := fun heq => hb (heq ▸ ha)
          simp [hb, this]
      rw [hunion, sum_union]
      exact disjoint_left.mpr fun b hb hb' => (mem_sdiff.mp hb').2 (mem_of_mem_erase hb)
  calc (set.card : Rat) = ∑ a ∈ set, 1 := by simp
    _ = ∑ a ∈ set, (∑ b ∈ teams.erase a, game a b + ∑ b ∈ teams.erase a, game b a) :=
        (sum_congr rfl fun a ha => h a (hset ha)).symm
    _ = ∑ a ∈ set, ((∑ b ∈ set.erase a, game a b + ∑ b ∈ set.erase a, game b a)
          + ∑ b ∈ teams \ set, (game a b + game b a)) := by
        refine sum_congr rfl fun a ha => ?_
        rw [hsplit game a ha, hsplit (fun a b => game b a) a ha, sum_add_distrib]
        ring
    _ = _ := by
        rw [sum_add_distrib, sum_add_distrib, ← sum_offDiag set game, ← sum_offDiag_swap set game,
          sum_product]
        ring

theorem Tournament.card_firstIds (count : Nat) :
    #(Tournament.firstIds count).toFinset = count := by
  have hnodup : (Tournament.firstIds count).Nodup :=
    List.nodup_range.map Int.ofNat_injective
  rw [List.toFinset_card_of_nodup hnodup, Tournament.firstIds, List.length_map, List.length_range]

theorem Tournament.card_teamSet (t : Tournament) : #t.teamSet = t.teamCount :=
  Tournament.card_firstIds t.teamCount

theorem Tournament.card_slotSet (t : Tournament) : #t.slotSet = t.slotCount :=
  Tournament.card_firstIds t.slotCount

section Daily

variable {t : Tournament} {game : Int → Int → Int → Rat}
  (h : ∀ slot ∈ t.slotSet, ∀ team ∈ t.teamSet, ∑ other ∈ t.teamSet.erase team, game team other slot
    + ∑ other ∈ t.teamSet.erase team, game other team slot = 1)
include h

/-- Where every team plays once in each slot, every slot is full. -/
theorem sum_slot_of_daily : ∀ slot ∈ t.slotSet,
    ∑ p ∈ t.teamSet.offDiag, game p.1 p.2 slot = t.teamCount / 2 := fun slot hslot => by
  rw [sum_offDiag_of_daily (fun a b => game a b slot) (h slot hslot), t.card_teamSet]

theorem sum_games_of_daily :
    ∑ q ∈ t.teamSet.offDiag ×ˢ t.slotSet, game q.1.1 q.1.2 q.2 = t.slotCount * t.teamCount / 2 := by
  rw [sum_product_right, sum_congr rfl (sum_slot_of_daily h), sum_const, t.card_slotSet,
    nsmul_eq_mul, mul_div_assoc]

end Daily

/-- As many slots as a slot's share of all games asks for. -/
theorem slotCount_eq_of_once_of_full {t : Tournament} {game : Int → Int → Int → Rat}
    (hteams : 1 ≤ t.teamCount)
    (honce : ∀ p ∈ t.teamSet.offDiag, ∑ slot ∈ t.slotSet, game p.1 p.2 slot = 1)
    (hfull : ∀ slot ∈ t.slotSet, ∑ p ∈ t.teamSet.offDiag, game p.1 p.2 slot = t.teamCount / 2) :
    t.slotCount = 2 * (t.teamCount - 1) := by
  have hall : (#t.teamSet.offDiag : Rat) = t.slotCount * (t.teamCount / 2) := by
    calc (#t.teamSet.offDiag : Rat) = ∑ p ∈ t.teamSet.offDiag, 1 := by simp
      _ = ∑ p ∈ t.teamSet.offDiag, ∑ slot ∈ t.slotSet, game p.1 p.2 slot :=
          (sum_congr rfl honce).symm
      _ = ∑ slot ∈ t.slotSet, ∑ p ∈ t.teamSet.offDiag, game p.1 p.2 slot := sum_comm
      _ = ∑ slot ∈ t.slotSet, (t.teamCount / 2 : Rat) := sum_congr rfl hfull
      _ = t.slotCount * (t.teamCount / 2) := by rw [sum_const, t.card_slotSet, nsmul_eq_mul]
  rw [offDiag_card, t.card_teamSet] at hall
  obtain ⟨n, hn⟩ : ∃ n, t.teamCount = n + 1 := ⟨t.teamCount - 1, by omega⟩
  have hpairs : t.teamCount * t.teamCount - t.teamCount = t.teamCount * n := by
    rw [hn, ← Nat.mul_sub_one]
    rfl
  rw [hpairs] at hall
  have hdouble : 2 * (t.teamCount * n) = t.slotCount * t.teamCount := by
    have : (2 * (t.teamCount * n : Nat) : Rat) = t.slotCount * t.teamCount := by
      rw [hall]
      ring
    exact_mod_cast this
  have hcancel : t.teamCount * (2 * n) = t.teamCount * t.slotCount := by
    rw [← Nat.mul_comm t.slotCount, ← hdouble]
    ring
  rw [← Nat.eq_of_mul_eq_mul_left hteams hcancel, hn, Nat.add_sub_cancel]

namespace Timetable

/-- A count of games is the number of those that take place. -/
theorem sum_game (plays : Timetable) (t : Tournament) {items : Finset ι}
    (home away slot : ι → Int) : ∑ i ∈ items, (plays.tally t).game (home i) (away i) (slot i) =
      (#{i ∈ items | plays (home i) (away i) (slot i)} : Rat) :=
  sum_boole _ _

theorem game_eq_zero_or_one (plays : Timetable) (t : Tournament) (home away slot : Int) :
    (plays.tally t).game home away slot = 0 ∨ (plays.tally t).game home away slot = 1 := by
  by_cases h : plays home away slot = true
  · exact .inr (if_pos h)
  · exact .inl (if_neg h)

/-- Every game takes place in exactly one slot. -/
def EachOnce (plays : Timetable) (t : Tournament) : Prop :=
  ∀ home ∈ t.teamSet, ∀ away ∈ t.teamSet, home ≠ away →
    #{slot ∈ t.slotSet | plays home away slot} = 1

/-- No team plays more than one game in a slot. -/
def AtMostDaily (plays : Timetable) (t : Tournament) : Prop :=
  ∀ slot ∈ t.slotSet, ∀ team ∈ t.teamSet,
    #{other ∈ t.teamSet.erase team | plays team other slot}
      + #{other ∈ t.teamSet.erase team | plays other team slot} ≤ 1

instance (plays : Timetable) (t : Tournament) : Decidable (plays.EachOnce t) := by
  unfold EachOnce
  infer_instance

instance (plays : Timetable) (t : Tournament) : Decidable (plays.AtMostDaily t) := by
  unfold AtMostDaily
  infer_instance

variable {plays : Timetable} {t : Tournament} {options : Options}

theorem eachOnce_iff : plays.EachOnce t ↔
    ∀ p ∈ t.teamSet.offDiag, ∑ slot ∈ t.slotSet, (plays.tally t).game p.1 p.2 slot = 1 := by
  have hsum : ∀ home away, ∑ slot ∈ t.slotSet, (plays.tally t).game home away slot = 1 ↔
      #{slot ∈ t.slotSet | plays home away slot} = 1 := fun home away => by
    rw [plays.sum_game t (fun _ => home) (fun _ => away) (fun slot => slot)]
    exact_mod_cast Iff.rfl
  constructor
  · intro h p hp
    obtain ⟨hhome, haway, hne⟩ := mem_offDiag.mp hp
    exact (hsum p.1 p.2).mpr (h p.1 hhome p.2 haway hne)
  · exact fun h home hhome away haway hne =>
      (hsum home away).mp (h (home, away) (mem_offDiag.mpr ⟨hhome, haway, hne⟩))

theorem atMostDaily_iff : plays.AtMostDaily t ↔ ∀ slot ∈ t.slotSet, ∀ team ∈ t.teamSet,
    ∑ other ∈ t.teamSet.erase team, (plays.tally t).game team other slot
      + ∑ other ∈ t.teamSet.erase team, (plays.tally t).game other team slot ≤ 1 := by
  refine forall₂_congr fun slot _ => forall₂_congr fun team _ => ?_
  rw [plays.sum_game t (fun _ => team) (fun other => other) (fun _ => slot),
    plays.sum_game t (fun other => other) (fun _ => team) (fun _ => slot)]
  exact_mod_cast Iff.rfl

namespace IsSeason

theorem sum_once (h : plays.IsSeason t options) :
    ∀ p ∈ t.teamSet.offDiag, ∑ slot ∈ t.slotSet, (plays.tally t).game p.1 p.2 slot = 1 :=
  eachOnce_iff.mp h.once

theorem sum_daily (h : plays.IsSeason t options) :
    ∀ slot ∈ t.slotSet, ∀ team ∈ t.teamSet,
      ∑ other ∈ t.teamSet.erase team, (plays.tally t).game team other slot
        + ∑ other ∈ t.teamSet.erase team, (plays.tally t).game other team slot = 1 :=
  fun slot hslot team hteam => by
    rw [plays.sum_game t (fun _ => team) (fun other => other) (fun _ => slot),
      plays.sum_game t (fun other => other) (fun _ => team) (fun _ => slot)]
    exact_mod_cast h.daily slot hslot team hteam

theorem sum_slot (h : plays.IsSeason t options) :
    ∀ slot ∈ t.slotSet,
      ∑ p ∈ t.teamSet.offDiag, (plays.tally t).game p.1 p.2 slot = t.teamCount / 2 :=
  sum_slot_of_daily h.sum_daily

theorem slotCount_eq (h : plays.IsSeason t options) (hteams : 1 ≤ t.teamCount) :
    t.slotCount = 2 * (t.teamCount - 1) :=
  slotCount_eq_of_once_of_full hteams h.sum_once h.sum_slot

end IsSeason

/-- In a slot in which every team plays once, some team of an odd set plays a team outside it. -/
theorem one_le_cut_of_daily {slot : Int} (h : ∀ team ∈ t.teamSet,
      ∑ other ∈ t.teamSet.erase team, (plays.tally t).game team other slot
        + ∑ other ∈ t.teamSet.erase team, (plays.tally t).game other team slot = 1)
    {set : Finset Int} (hset : set ⊆ t.teamSet) (hodd : set.card % 2 = 1) :
    1 ≤ ∑ p ∈ set ×ˢ (t.teamSet \ set),
      ((plays.tally t).game p.1 p.2 slot + (plays.tally t).game p.2 p.1 slot) := by
  have hcount := card_eq_inner_add_cut hset (fun a b => (plays.tally t).game a b slot) h
  rw [sum_add_distrib, plays.sum_game t Prod.fst Prod.snd (fun _ => slot),
    plays.sum_game t Prod.fst Prod.snd (fun _ => slot),
    plays.sum_game t Prod.snd Prod.fst (fun _ => slot)] at hcount
  rw [sum_add_distrib, plays.sum_game t Prod.fst Prod.snd (fun _ => slot),
    plays.sum_game t Prod.snd Prod.fst (fun _ => slot)]
  norm_cast at hcount ⊢
  omega

end Timetable

end RoundRobin
