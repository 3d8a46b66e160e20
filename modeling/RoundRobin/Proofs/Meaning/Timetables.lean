import RoundRobin.Proofs.Meaning.Program

/-! Programs and timetables. A program bounds breaks from below only, so it leaves its rules short
of no less than the timetable itself does; and the counts of a season meet all rows of the frame. -/

namespace RoundRobin

open Zimpl

/-- The values of the games are those of a timetable. -/
def Zimpl.Assignment.Plays (values : Assignment) (t : Tournament) (plays : Timetable) : Prop :=
  ∀ p ∈ t.teamSet.offDiag, ∀ slot ∈ t.slotSet,
    values "x" (Tuple.three (p, slot)) = if plays p.1 p.2 slot then 1 else 0

theorem Zimpl.Assignment.Plays.shows {values : Assignment} {t : Tournament} {plays : Timetable}
    (hplays : values.Plays t plays) :
    values.Shows t { values.tally with game := (plays.tally t).game } :=
  ⟨hplays, fun _ _ _ _ _ => rfl, fun _ _ _ _ _ => rfl, fun _ _ _ _ _ => rfl⟩

namespace Timetable

variable {plays : Timetable} {t : Tournament} {options : Options}

theorem sum_homeGames (plays : Timetable) (t : Tournament) (team slot : Int) :
    ∑ game ∈ t.teamSet.erase team ×ˢ {played ∈ t.slotSet | played ≤ slot},
      (plays.tally t).game team game.1 game.2 = (plays.tally t).homeGames team slot := by
  rw [plays.sum_game t (fun _ => team) Prod.fst Prod.snd]
  refine congrArg (fun games : Finset (Int × Int) => (games.card : Rat)) ?_
  ext game
  simp only [Finset.mem_filter, Finset.mem_product]
  tauto

theorem IsHome.one_le {team slot : Int} (h : plays.IsHome t team slot) :
    1 ≤ ∑ other ∈ t.teamSet.erase team, (plays.tally t).game team other slot := by
  obtain ⟨-, other, hother, hplays⟩ := h
  rw [plays.sum_game t (fun _ => team) (fun other => other) (fun _ => slot)]
  exact_mod_cast Finset.card_pos.mpr ⟨other, Finset.mem_filter.mpr ⟨hother, hplays⟩⟩

theorem IsAway.one_le {team slot : Int} (h : plays.IsAway t team slot) :
    1 ≤ ∑ other ∈ t.teamSet.erase team, (plays.tally t).game other team slot := by
  obtain ⟨-, other, hother, hplays⟩ := h
  rw [plays.sum_game t (fun other => other) (fun _ => team) (fun _ => slot)]
  exact_mod_cast Finset.card_pos.mpr ⟨other, Finset.mem_filter.mpr ⟨hother, hplays⟩⟩

theorem sum_home_eq_zero {team slot : Int} (hslot : slot ∈ t.slotSet)
    (h : ¬ plays.IsHome t team slot) :
    ∑ other ∈ t.teamSet.erase team, (plays.tally t).game team other slot = 0 :=
  Finset.sum_eq_zero fun other hother => if_neg fun hplays => h ⟨hslot, other, hother, hplays⟩

theorem sum_away_eq_zero {team slot : Int} (hslot : slot ∈ t.slotSet)
    (h : ¬ plays.IsAway t team slot) :
    ∑ other ∈ t.teamSet.erase team, (plays.tally t).game other team slot = 0 :=
  Finset.sum_eq_zero fun other hother => if_neg fun hplays => h ⟨hslot, other, hother, hplays⟩

theorem game_nonneg (plays : Timetable) (t : Tournament) (home away slot : Int) :
    0 ≤ (plays.tally t).game home away slot :=
  nonneg_of_binary (plays.game_eq_zero_or_one t home away slot)

theorem breaks_eq_zero_or_one (plays : Timetable) (t : Tournament) (team slot : Int) :
    ((plays.tally t).homeBreak team slot = 0 ∨ (plays.tally t).homeBreak team slot = 1) ∧
      ((plays.tally t).awayBreak team slot = 0 ∨ (plays.tally t).awayBreak team slot = 1) := by
  constructor
  · show (if _ then (1 : Rat) else 0) = 0 ∨ (if _ then (1 : Rat) else 0) = 1
    split <;> simp
  · show (if _ then (1 : Rat) else 0) = 0 ∨ (if _ then (1 : Rat) else 0) = 1
    split <;> simp

/-- The slot before a slot but the first. -/
theorem sub_one_mem_slotSet {slot : Int} (h : slot ∈ t.slotSet.erase 0) : slot - 1 ∈ t.slotSet := by
  obtain ⟨hne, hmem⟩ := Finset.mem_erase.mp h
  rw [Tournament.mem_slotSet] at hmem ⊢
  omega

namespace AtMostDaily

variable (h : plays.AtMostDaily t)
include h

theorem sum_home_le {team slot : Int} (hteam : team ∈ t.teamSet) (hslot : slot ∈ t.slotSet) :
    ∑ other ∈ t.teamSet.erase team, (plays.tally t).game team other slot ≤ 1 := by
  have hdaily := atMostDaily_iff.mp h slot hslot team hteam
  have haway : 0 ≤ ∑ other ∈ t.teamSet.erase team, (plays.tally t).game other team slot :=
    Finset.sum_nonneg fun other _ => plays.game_nonneg t other team slot
  linarith

theorem sum_away_le {team slot : Int} (hteam : team ∈ t.teamSet) (hslot : slot ∈ t.slotSet) :
    ∑ other ∈ t.teamSet.erase team, (plays.tally t).game other team slot ≤ 1 := by
  have hdaily := atMostDaily_iff.mp h slot hslot team hteam
  have hhome : 0 ≤ ∑ other ∈ t.teamSet.erase team, (plays.tally t).game team other slot :=
    Finset.sum_nonneg fun other _ => plays.game_nonneg t team other slot
  linarith

/-- The rows on breaks and home games hold of the counts of a timetable. -/
theorem countsMet : Frame.CountsMet t (plays.tally t) where
  homeBreaks _ team hteam slot hslot := by
    have hbefore := h.sum_home_le hteam (sub_one_mem_slotSet hslot)
    have hnow := h.sum_home_le hteam (Finset.mem_of_mem_erase hslot)
    show _ ≤ if _ then (1 : Rat) else 0
    split
    · linarith
    · rename_i hbreak
      rcases not_and_or.mp hbreak with hnone | hnone
      · linarith [sum_home_eq_zero (sub_one_mem_slotSet hslot) hnone]
      · linarith [sum_home_eq_zero (Finset.mem_of_mem_erase hslot) hnone]
  awayBreaks _ team hteam slot hslot := by
    have hbefore := h.sum_away_le hteam (sub_one_mem_slotSet hslot)
    have hnow := h.sum_away_le hteam (Finset.mem_of_mem_erase hslot)
    show _ ≤ if _ then (1 : Rat) else 0
    split
    · linarith
    · rename_i hbreak
      rcases not_and_or.mp hbreak with hnone | hnone
      · linarith [sum_away_eq_zero (sub_one_mem_slotSet hslot) hnone]
      · linarith [sum_away_eq_zero (Finset.mem_of_mem_erase hslot) hnone]
  homeGames _ team _ slot _ := plays.sum_homeGames t team slot

/-- At most one home game of a team is played in each slot. -/
theorem homeGames_le {team slot : Int} (hteam : team ∈ t.teamSet) (hslot : slot ∈ t.slotSet) :
    (plays.tally t).homeGames team slot ≤ slot + 1 := by
  have hsub : {played ∈ t.slotSet | played ≤ slot} ⊆ Finset.Icc 0 slot := fun played hplayed => by
    obtain ⟨hmem, hle⟩ := Finset.mem_filter.mp hplayed
    exact Finset.mem_Icc.mpr ⟨(Tournament.mem_slotSet.mp hmem).1, hle⟩
  have hcard := Finset.card_le_card hsub
  have hfirst := (Tournament.mem_slotSet.mp hslot).1
  rw [Int.card_Icc] at hcard
  calc (plays.tally t).homeGames team slot
      = ∑ played ∈ t.slotSet with played ≤ slot, ∑ other ∈ t.teamSet.erase team,
          (plays.tally t).game team other played := by
        rw [← plays.sum_homeGames, Finset.sum_product_right]
    _ ≤ ∑ played ∈ t.slotSet with played ≤ slot, (1 : Rat) :=
        Finset.sum_le_sum fun played hplayed =>
          h.sum_home_le hteam (Finset.mem_of_mem_filter played hplayed)
    _ = ({played ∈ t.slotSet | played ≤ slot} : Finset Int).card := by simp
    _ ≤ slot + 1 := by
        have hle : (({played ∈ t.slotSet | played ≤ slot} : Finset Int).card : Int) ≤ slot + 1 := by
          omega
        exact_mod_cast hle

end AtMostDaily

/-- Up to any slot, a team has no more home games than in the whole season. -/
theorem homeGames_le_sum (plays : Timetable) (t : Tournament) (team slot : Int) :
    (plays.tally t).homeGames team slot ≤ ∑ other ∈ t.teamSet.erase team, ∑ played ∈ t.slotSet,
      (plays.tally t).game team other played := by
  rw [← plays.sum_homeGames, Finset.sum_product]
  exact Finset.sum_le_sum fun other _ => Finset.sum_le_sum_of_subset_of_nonneg
    (Finset.filter_subset _ _) fun played _ _ => plays.game_nonneg t team other played

/-- A team that plays each other team at home at most once has no more home games than there are
other teams. -/
theorem homeGames_le_opponents {team slot : Int} (hteam : team ∈ t.teamSet)
    (honce : ∀ p ∈ t.teamSet.offDiag, ∑ slot ∈ t.slotSet, (plays.tally t).game p.1 p.2 slot ≤ 1) :
    (plays.tally t).homeGames team slot ≤ (t.teamCount - 1 : Nat) := by
  calc (plays.tally t).homeGames team slot
      ≤ ∑ other ∈ t.teamSet.erase team, ∑ played ∈ t.slotSet,
          (plays.tally t).game team other played := plays.homeGames_le_sum t team slot
    _ ≤ ∑ other ∈ t.teamSet.erase team, 1 := Finset.sum_le_sum fun other hother =>
        honce (team, other) (mem_offDiag_of_mem_erase hteam hother)
    _ = (t.teamCount - 1 : Nat) := by
        rw [Finset.sum_const, Finset.card_erase_of_mem hteam, t.card_teamSet, nsmul_one]

/-- In a double round robin, half of the slots have a home game of each team. -/
theorem EachOnce.homeGames_le_half (h : plays.EachOnce t)
    (hslots : t.slotCount = 2 * (t.teamCount - 1)) {team slot : Int} (hteam : team ∈ t.teamSet) :
    (plays.tally t).homeGames team slot ≤ t.slotCount / 2 := by
  calc (plays.tally t).homeGames team slot
      ≤ (t.teamCount - 1 : Nat) :=
        homeGames_le_opponents hteam fun p hp => (eachOnce_iff.mp h p hp).le
    _ = t.slotCount / 2 := by
        rw [hslots]
        simp

/-- The counts of a timetable keep the bounds of their variables. -/
theorem homeGames_admitted (hdaily : plays.AtMostDaily t)
    (hhalf : t.phased = true →
      ∀ team ∈ t.teamSet, ∀ slot, (plays.tally t).homeGames team slot ≤ t.slotCount / 2)
    {team slot : Int} (hteam : team ∈ t.teamSet) (hslot : slot ∈ t.slotSet) :
    ((plays.tally t).homeGames team slot).isInt = true ∧ 0 ≤ (plays.tally t).homeGames team slot ∧
      (plays.tally t).homeGames team slot ≤
        if t.phased then min (slot + 1 : Rat) (t.slotCount / 2) else slot + 1 := by
  refine ⟨rfl, Nat.cast_nonneg _, ?_⟩
  split
  · rename_i hphased
    exact le_min (hdaily.homeGames_le hteam hslot) (hhalf hphased team hteam slot)
  · exact hdaily.homeGames_le hteam hslot

namespace IsSeason

variable (h : plays.IsSeason t options)
include h

theorem atMostDaily : plays.AtMostDaily t :=
  fun slot hslot team hteam => (h.daily slot hslot team hteam).le

theorem homeGames_le_half (htwo : 2 ≤ t.teamCount) {team slot : Int} (hteam : team ∈ t.teamSet) :
    (plays.tally t).homeGames team slot ≤ t.slotCount / 2 :=
  EachOnce.homeGames_le_half h.once (h.slotCount_eq (by omega)) hteam

theorem admits (htwo : 2 ≤ t.teamCount) : Frame.Admits t (plays.tally t) where
  games q _ := plays.game_eq_zero_or_one t q.1.1 q.1.2 q.2
  breaks _ q _ := plays.breaks_eq_zero_or_one t q.1 q.2
  homeGames _ q hq := by
    obtain ⟨hteam, hslot⟩ := Finset.mem_product.mp hq
    exact homeGames_admitted h.atMostDaily
      (fun _ team hteam slot => h.homeGames_le_half htwo hteam) hteam hslot

end IsSeason

end Timetable

/-- The counts of a timetable, with the breaks of an assignment where it has any. -/
def Zimpl.Assignment.countsOf (values : Assignment) (t : Tournament)
    (plays : Timetable) : Tally where
  game := (plays.tally t).game
  homeBreak team slot :=
    if t.hasBreaks then values "bh" (Tuple.two (team, slot))
      else (plays.tally t).homeBreak team slot
  awayBreak team slot :=
    if t.hasBreaks then values "ba" (Tuple.two (team, slot))
      else (plays.tally t).awayBreak team slot
  homeGames := (plays.tally t).homeGames

/-- Whether there is a break is the least that is not negative and meets its row. -/
theorem Timetable.homeBreak_le {plays : Timetable} {t : Tournament} {team slot : Int} {bound : Rat}
    (hzero : 0 ≤ bound) (hrow : ∑ other ∈ t.teamSet.erase team,
      (plays.tally t).game team other (slot - 1) + ∑ other ∈ t.teamSet.erase team,
        (plays.tally t).game team other slot - 1 ≤ bound) :
    (plays.tally t).homeBreak team slot ≤ bound := by
  show (if _ then (1 : Rat) else 0) ≤ _
  split
  · rename_i hbreak
    linarith [hbreak.1.one_le, hbreak.2.one_le]
  · exact hzero

theorem Timetable.awayBreak_le {plays : Timetable} {t : Tournament} {team slot : Int} {bound : Rat}
    (hzero : 0 ≤ bound) (hrow : ∑ other ∈ t.teamSet.erase team,
      (plays.tally t).game other team (slot - 1) + ∑ other ∈ t.teamSet.erase team,
        (plays.tally t).game other team slot - 1 ≤ bound) :
    (plays.tally t).awayBreak team slot ≤ bound := by
  show (if _ then (1 : Rat) else 0) ≤ _
  split
  · rename_i hbreak
    linarith [hbreak.1.one_le, hbreak.2.one_le]
  · exact hzero

theorem Timetable.breaks_le {plays : Timetable} {t : Tournament} {tally : Tally}
    (hgame : tally.game = (plays.tally t).game) (hcounts : Frame.CountsMet t tally)
    (hadmits : Frame.Admits t tally) (hbreaks : t.hasBreaks = true) (side : Side) {team slot : Int}
    (hteam : team ∈ t.teamSet) (hslot : slot ∈ t.slotSet.erase 0) :
    (plays.tally t).breaks side team slot ≤ tally.breaks side team slot := by
  have hbinary := hadmits.breaks hbreaks (team, slot) (Finset.mem_product.mpr ⟨hteam, hslot⟩)
  have hhome := hcounts.homeBreaks hbreaks team hteam slot hslot
  have haway := hcounts.awayBreaks hbreaks team hteam slot hslot
  rw [hgame] at hhome haway
  exact Tally.breaks_mono (Timetable.homeBreak_le (nonneg_of_binary hbinary.1) hhome)
    (Timetable.awayBreak_le (nonneg_of_binary hbinary.2) haway)

section Programs

variable {t : Tournament} {options : Options} {values : Assignment} {plays : Timetable}
  (hwell : t.WellFormed) (hcheck : ∀ rule ∈ t.numbered, rule.check options = .ok ())
  (hfull : options.feasibility = false) (hcutoff : options.soft = true → options.cutoff = none)
include hwell hcheck hfull hcutoff

theorem Zimpl.Assignment.Plays.met (hplays : values.Plays t plays)
    (hholds : (t.program options).Holds values) :
    t.Met options values (values.countsOf t plays) := by
  have met := (Tournament.holds_iff_met hplays.shows hwell hcheck hfull hcutoff).mp hholds
  refine (Tournament.holds_iff_met ?_ hwell hcheck hfull hcutoff).mp hholds
  refine ⟨hplays, fun hbreaks _ _ _ _ => (if_pos hbreaks).symm,
    fun hbreaks _ _ _ _ => (if_pos hbreaks).symm, fun hbalance team hteam slot hslot => ?_⟩
  exact (met.counts.homeGames hbalance team hteam slot hslot).symm.trans
    (plays.sum_homeGames t team slot)

/-- Where a program holds, its games are a season, and no violation is less than what the season
leaves its rule short of. -/
theorem Zimpl.Assignment.Plays.short_le (hplays : values.Plays t plays)
    (hholds : (t.program options).Holds values) :
    plays.IsSeason t options ∧ ∀ rule ∈ t.numbered, rule.isSkipped options = false →
      ∀ place ∈ rule.rule.demand.places t options,
        rule.rule.demand.short t (plays.tally t) options place ≤ rule.slack values place := by
  have met := hplays.met hwell hcheck hfull hcutoff hholds
  refine ⟨Timetable.isSeason_of_gamesMet met.games, fun rule hmem hskip place hplace => ?_⟩
  have hrule := Tournament.rule_mem hmem
  have hgame : (values.countsOf t plays).game = (plays.tally t).game := rfl
  have hbreaks : ∀ side, ∀ team ∈ t.teamSet, ∀ slot ∈ t.slotSet.erase 0,
      (plays.tally t).breaks side team slot ≤ (values.countsOf t plays).breaks side team slot :=
    fun side team hteam slot hslot => by
      by_cases hbreaks : t.hasBreaks = true
      · exact Timetable.breaks_le hgame met.counts met.admits hbreaks side hteam hslot
      · exact Tally.breaks_mono (if_neg hbreaks).ge (if_neg hbreaks).ge
  have hless : rule.rule.demand.short t (plays.tally t) options place ≤
      rule.rule.demand.short t (values.countsOf t plays) options place :=
    Demand.short_mono hbreaks hgame.symm rfl (hwell.teamIds _ hrule) (hwell.slotIds _ hrule) place
  exact hless.trans (met.rules rule hmem hskip place hplace)

/-- A program holds of the counts of a season where no violation is less than its rule is short
of. -/
theorem Timetable.IsSeason.holds (h : plays.IsSeason t options)
    (shows : values.Shows t (plays.tally t))
    (hshares : options.soft = true → ∀ kind ∈ [Kind.ca1, .ca2, .ga1],
      Frame.Shares t options values kind)
    (hrules : ∀ rule ∈ t.numbered, rule.isSkipped options = false →
      ∀ place ∈ rule.rule.demand.places t options,
        rule.rule.demand.short t (plays.tally t) options place ≤ rule.slack values place) :
    (t.program options).Holds values :=
  (Tournament.holds_iff_met shows hwell hcheck hfull hcutoff).mpr
    ⟨h.gamesMet hwell.two_le, h.atMostDaily.countsMet, h.admits hwell.two_le, hshares, hrules⟩

end Programs

/-- A season counts no negative number of games. -/
theorem Demand.counted_tally (plays : Timetable) (t : Tournament) (demand : Demand) :
    demand.Counted (plays.tally t) := by
  cases demand with
  | ga1 bound =>
    refine Finset.sum_nonneg fun slot _ => List.sum_nonneg fun value hvalue => ?_
    obtain ⟨game, -, rfl⟩ := List.mem_map.mp hvalue
    exact plays.game_nonneg t game.home game.away slot
  | _ => trivial

theorem Numbered.slack_of_hard {rule : Numbered} (h : rule.rule.strength = .hard)
    (values : Assignment) (place : Place) : rule.slack values place = 0 := by
  unfold Numbered.slack
  rw [h]

/-- Each rule of a tournament has its number. -/
theorem Tournament.exists_numbered {t : Tournament} {rule : Rule} (h : rule ∈ t.rules) :
    ∃ numbered ∈ t.numbered, numbered.rule = rule := by
  rw [← t.map_rule_numbered] at h
  exact List.mem_map.mp h

end RoundRobin
