import Mathlib
import RoundRobin.Proofs.Meaning.Balances
import RoundRobin.Proofs.Meaning.Indicators
import RoundRobin.Proofs.Meaning.Redundant

/-! Breaks and home games counted. Whatever games the rows on games, halves and the mirror allow,
their breaks and home games meet the rows that define the counters. They also keep the bounds that
the counters are declared with, except in phased seasons that may leave games out and have too few
slots for all of them: there a team can be at home in more slots than its counter can say. -/

namespace RoundRobin

open Zimpl

section Counts

variable {plays : Timetable} {t : Tournament}

/-- Where the second half mirrors the first, a team has as many home games as it has games in the
first half, and no more than one of those a day. -/
theorem Timetable.homeGames_le_half_of_mirror {team slot : Int} (hteam : team ∈ t.teamSet)
    (hdaily : plays.AtMostDaily t) (heven : t.slotCount % 2 = 0)
    (hmirror : ∀ p ∈ t.teamSet.offDiag, ∀ slot ∈ t.firstHalf, (plays.tally t).game p.1 p.2 slot =
      (plays.tally t).game p.2 p.1 (slot + (t.slotCount / 2 : Nat))) :
    (plays.tally t).homeGames team slot ≤ t.slotCount / 2 := by
  have hcard : t.firstHalf.card = t.slotCount / 2 := Tournament.card_firstIds _
  calc (plays.tally t).homeGames team slot
      ≤ ∑ other ∈ t.teamSet.erase team, ∑ played ∈ t.slotSet,
          (plays.tally t).game team other played := plays.homeGames_le_sum t team slot
    _ = ∑ other ∈ t.teamSet.erase team, ∑ played ∈ t.firstHalf,
          ((plays.tally t).game other team played + (plays.tally t).game team other played) := by
        refine Finset.sum_congr rfl fun other hother => ?_
        have hpair := Scene.swap_mem (mem_offDiag_of_mem_erase hteam hother)
        exact (Tournament.sum_firstHalf_of_mirror heven (hmirror _ hpair)).symm
    _ =
          ∑ played ∈ t.firstHalf, (∑ other ∈ t.teamSet.erase team, (plays.tally t).game
            team other played
          + ∑ other ∈ t.teamSet.erase team, (plays.tally t).game other team played) := by
        rw [Finset.sum_comm]
        refine Finset.sum_congr rfl fun played _ => ?_
        rw [Finset.sum_add_distrib, add_comm]
    _ ≤ ∑ played ∈ t.firstHalf, 1 := Finset.sum_le_sum fun played hplayed =>
        Timetable.atMostDaily_iff.mp hdaily played
          (t.mem_slotSet_of_mem_firstHalf hplayed) team hteam
    _ = t.slotCount / 2 := by
        rw [Finset.sum_const, hcard, nsmul_one,
          Nat.cast_div (Nat.dvd_of_mod_eq_zero heven) (by norm_num)]
        rfl

end Counts

section Completion

variable {t : Tournament} {options : Options} {env : Env} {values : Assignment} {plays : Timetable}

/-- The breaks and home games of a timetable in place of those that some values show. -/
def Zimpl.Assignment.withCounters (values : Assignment) (t : Tournament) (plays : Timetable) :
    Assignment :=
  fun name => if name ∈ ["bh", "ba", "hg"] then (plays.tally t).assignment name else values name

theorem Zimpl.Assignment.Plays.shows_withCounters (hplays : values.Plays t plays) :
    (values.withCounters t plays).Shows t (plays.tally t) where
  game := hplays
  homeBreak _ _ _ _ _ := rfl
  awayBreak _ _ _ _ _ := rfl
  homeGames _ _ _ _ _ := rfl

/-- The counters of a timetable meet their rows, and their bounds where its home games do. -/
theorem Stage.completes_withCounters (stage : Stage t options env) (hplays : values.Plays t plays)
    (hdaily : plays.AtMostDaily t) (hhalf : t.hasBalance = true → t.phased = true →
      ∀ team ∈ t.teamSet, ∀ slot, (plays.tally t).homeGames team slot ≤ t.slotCount / 2) :
    (t.program options).Completes ["bh", "ba", "hg"] ["br_count", "hg_count"] env values
      (values.withCounters t plays) := by
  have scene := stage.toScene
  have shows := hplays.shows_withCounters
  have hnames := t.names_apart options
  constructor
  case agree => exact fun name hname => if_neg hname
  case holds =>
    refine Frame.holdsOn_counters ((scene.breakCount_mean shows stage.symbols).holds_iff.mpr ?_)
      ((scene.homeGames_mean shows stage.symbols).holds_iff.mpr hdaily.countsMet.homeGames)
    intro hbreaks team hteam slot hslot
    exact ⟨hdaily.countsMet.homeBreaks hbreaks team hteam slot hslot,
      hdaily.countsMet.awayBreaks hbreaks team hteam slot hslot⟩
  case admits =>
    have hbreaks : (t.program options).AdmitsOn ["bh", "ba"] env (values.withCounters t plays) := by
      cases hbreaks : t.hasBreaks with
      | true =>
        exact (stage.admitsOn_breaks hbreaks).mpr fun q _ =>
          plays.breaks_eq_zero_or_one t q.1 q.2
      | false =>
        refine Program.admitsOn_of_undeclared fun name hname h => ?_
        have hsome :=
          Tournament.hasBreaks_of_mem_entities hname (t.declaredNames_program options ▸ h)
        exact absurd (hbreaks.symm.trans hsome) (by decide)
    have hhome : (t.program options).AdmitsOn ["hg"] env (values.withCounters t plays) := by
      cases hbalance : t.hasBalance with
      | true =>
        refine (stage.admitsOn_homeGames hbalance hnames shows).mpr fun q hq => ?_
        obtain ⟨hteam, hslot⟩ := Finset.mem_product.mp hq
        exact Timetable.homeGames_admitted hdaily (hhalf hbalance) hteam hslot
      | false =>
        refine Program.admitsOn_of_undeclared fun name hname h => ?_
        obtain rfl := List.mem_singleton.mp hname
        have hsome := Tournament.hasBalance_of_mem_entities (t.declaredNames_program options ▸ h)
        exact absurd (hbalance.symm.trans hsome) (by decide)
    intro decl hdecl hname
    rcases List.mem_append.mp (show decl.name ∈ ["bh", "ba"] ++ ["hg"] from hname) with
      hname | hname
    · exact hbreaks decl hdecl hname
    · exact hhome decl hdecl hname

end Completion

/-- A phased season that may stay short of a double round robin and has so few slots that a team can
be at home in more than half of them, where home games are counted. -/
def Tournament.CutsHomeGames (t : Tournament) (options : Options) : Prop :=
  t.hasBalance = true ∧ t.phased = true ∧ options.feasibility = true ∧ options.symmetric = false ∧
    0 < t.slotCount ∧ t.slotCount < 2 * (t.teamCount - 1)

section Bounds

variable {t : Tournament} {options : Options} {env : Env} {values : Assignment} {plays : Timetable}

theorem Frame.le_of_exactly {a b : Rat} (h : (Frame.exactly options).Holds a b) : a ≤ b := by
  unfold Frame.exactly at h
  split at h
  · exact h
  · exact le_of_eq h

theorem Stage.atMostDaily (stage : Stage t options env) (hplays : values.Plays t plays)
    (h : (t.program options).HoldsOn ["c1", "c2", "c3", "c4", "c5"] env values) :
    plays.AtMostDaily t :=
  Timetable.atMostDaily_iff.mpr fun slot hslot team hteam => Frame.le_of_exactly
    (stage.toScene.daily_of_holdsOn hplays.shows stage.symbols h (by simp) slot hslot team hteam)

/-- In any other phased season the rows keep each team from being at home in more than half of the
slots. -/
theorem Stage.homeGames_le_half (stage : Stage t options env) (htwo : 2 ≤ t.teamCount)
    (hcut : ¬ t.CutsHomeGames options) (hbalance : t.hasBalance = true) (hphased : t.phased = true)
    (hplays : values.Plays t plays)
    (h : (t.program options).HoldsOn ["c1", "c2", "c3", "c4", "c5"] env values) :
    ∀ team ∈ t.teamSet, ∀ slot, (plays.tally t).homeGames team slot ≤ t.slotCount / 2 := by
  intro team hteam slot
  have scene := stage.toScene
  have honce := scene.once_of_holdsOn hplays.shows stage.symbols h (by simp)
  by_cases hsymmetric : options.symmetric = true
  · obtain ⟨heven, hmirror⟩ :=
      scene.mirror_of_holdsOn hplays.shows stage.symbols h htwo hsymmetric (by simp)
    exact Timetable.homeGames_le_half_of_mirror hteam (stage.atMostDaily hplays h) heven hmirror
  · have hopponents : (plays.tally t).homeGames team slot ≤ (t.teamCount - 1 : Nat) :=
      Timetable.homeGames_le_opponents hteam fun p hp => Frame.le_of_exactly (honce p hp)
    have hslots : t.slotCount = 0 ∨ 2 * (t.teamCount - 1) ≤ t.slotCount := by
      by_cases hfull : options.feasibility = false
      · exact .inr (scene.slotCount_of_holdsOn hplays.shows stage.symbols h htwo hfull (by simp)
          (by simp)).ge
      · by_contra hfew
        exact hcut ⟨hbalance, hphased,
          by simpa using hfull, by simpa using hsymmetric, by omega, by omega⟩
    rcases hslots with hnone | hmany
    · have hempty : t.slotSet = ∅ := Finset.card_eq_zero.mp (t.card_slotSet.trans hnone)
      have hzero := plays.homeGames_le_sum t team slot
      simp only [hempty, Finset.sum_empty, Finset.sum_const_zero] at hzero
      rw [hnone]
      simpa using hzero
    · have hmany : (2 * (t.teamCount - 1 : Nat) : Rat) ≤ t.slotCount := by exact_mod_cast hmany
      linarith

end Bounds

/-- The first team is at home to the other teams in turn, in each slot up to a last one. -/
def homeRun (last : Int) : Timetable := fun home away slot =>
  home = 0 ∧ away = slot + 1 ∧ slot ≤ last

section Run

variable {t : Tournament} {last : Int}

theorem homeRun_iff {home away slot : Int} :
    homeRun last home away slot = true ↔ home = 0 ∧ away = slot + 1 ∧ slot ≤ last := by
  simp [homeRun]

theorem sum_homeRun_slots (t : Tournament) (slots : Finset Int) (home away : Int) :
    ∑ slot ∈ slots, ((homeRun last).tally t).game home away slot ≤ 1 := by
  rw [(homeRun last).sum_game t (fun _ => home) (fun _ => away) (fun slot => slot)]
  have hcard : Finset.card {slot ∈ slots | homeRun last home away slot} ≤ 1 := by
    refine Finset.card_le_one.mpr fun a ha b hb => ?_
    have ha := homeRun_iff.mp (Finset.mem_filter.mp ha).2
    have hb := homeRun_iff.mp (Finset.mem_filter.mp hb).2
    omega
  exact_mod_cast hcard

theorem sum_homeRun_pairs (slot : Int) :
    ∑ p ∈ t.teamSet.offDiag, ((homeRun last).tally t).game p.1 p.2 slot ≤ 1 := by
  rw [(homeRun last).sum_game t Prod.fst Prod.snd (fun _ => slot)]
  have hcard : Finset.card {p ∈ t.teamSet.offDiag | homeRun last p.1 p.2 slot} ≤ 1 := by
    refine Finset.card_le_one.mpr fun a ha b hb => ?_
    obtain ⟨hahome, haaway, -⟩ := homeRun_iff.mp (Finset.mem_filter.mp ha).2
    obtain ⟨hbhome, hbaway, -⟩ := homeRun_iff.mp (Finset.mem_filter.mp hb).2
    exact Prod.ext (hahome.trans hbhome.symm) (haaway.trans hbaway.symm)
  exact_mod_cast hcard

theorem atMostDaily_homeRun (t : Tournament) (last : Int) : (homeRun last).AtMostDaily t := by
  intro slot hslot team hteam
  have hslot := Tournament.mem_slotSet.mp hslot
  have hhome : Finset.card {other ∈ t.teamSet.erase team | homeRun last team other slot} ≤
      if team = 0 then 1 else 0 := by
    split
    · refine Finset.card_le_one.mpr fun a ha b hb => ?_
      have ha := homeRun_iff.mp (Finset.mem_filter.mp ha).2
      have hb := homeRun_iff.mp (Finset.mem_filter.mp hb).2
      omega
    · rename_i hteam
      refine (Finset.card_eq_zero.mpr (Finset.filter_eq_empty_iff.mpr fun other _ hplays => ?_)).le
      exact hteam (homeRun_iff.mp hplays).1
  have haway : Finset.card {other ∈ t.teamSet.erase team | homeRun last other team slot} ≤
      if team = 0 then 0 else 1 := by
    split
    · refine (Finset.card_eq_zero.mpr (Finset.filter_eq_empty_iff.mpr fun other _ hplays => ?_)).le
      have hplays := homeRun_iff.mp hplays
      omega
    · refine Finset.card_le_one.mpr fun a ha b hb => ?_
      have ha := homeRun_iff.mp (Finset.mem_filter.mp ha).2
      have hb := homeRun_iff.mp (Finset.mem_filter.mp hb).2
      omega
  split at hhome <;> split at haway <;> omega

/-- The first team has one home game more in a run than the last slot says. -/
theorem homeGames_homeRun (hlast : 0 ≤ last) (hslots : last < t.slotCount)
    (hteams : last + 1 < t.teamCount) :
    last + 1 ≤ (homeRun last).homeGames t 0 last := by
  have hcard : (Finset.Icc 0 last).card ≤ (homeRun last).homeGames t 0 last := by
    refine Finset.card_le_card_of_injOn (fun slot => (slot + 1, slot)) (fun slot hslot => ?_)
      fun a _ b _ heq => congrArg Prod.snd heq
    have hslot := Finset.mem_Icc.mp hslot
    have hother : slot + 1 ∈ t.teamSet.erase 0 := by
      rw [Finset.mem_erase, Tournament.mem_teamSet]
      omega
    have hplayed : slot ∈ t.slotSet := Tournament.mem_slotSet.mpr (by omega)
    exact Finset.mem_filter.mpr ⟨Finset.mem_product.mpr ⟨hother, hplayed⟩, hslot.2,
      homeRun_iff.mpr ⟨rfl, rfl, hslot.2⟩⟩
  rw [Int.card_Icc] at hcard
  omega

variable {options : Options} {env : Env} {values : Assignment} (stage : Stage t options env)
  (hplays : values.Plays t (homeRun last))
include stage hplays

/-- Where games may be left out, a run meets the rows on games and on the first half. -/
theorem Stage.holdsOn_homeRun (htwo : 2 ≤ t.teamCount) (hfeasible : options.feasibility = true)
    (hsymmetric : options.symmetric = false) :
    (t.program options).HoldsOn ["c1", "c2", "c3", "c4", "c5"] env values := by
  have scene := stage.toScene
  have hexactly : Frame.exactly options = .le := by
    rw [Frame.exactly, hfeasible]
    rfl
  apply Frame.holdsOn_structure
  case hschedule =>
    show ∀ block ∈ [_, _, _], _
    rw [List.forall_mem_cons, List.forall_mem_cons, List.forall_mem_singleton, hexactly,
      (scene.once_means hplays.shows stage.symbols _).holds_iff,
      (scene.full_means hplays.shows stage.symbols _).holds_iff,
      (scene.daily_means hplays.shows stage.symbols _).holds_iff]
    refine ⟨fun p _ => sum_homeRun_slots t t.slotSet p.1 p.2, fun slot _ => ?_,
      Timetable.atMostDaily_iff.mp (atMostDaily_homeRun t last)⟩
    have htwo : (2 : Rat) ≤ t.teamCount := by exact_mod_cast htwo
    exact (sum_homeRun_pairs slot).trans (by linarith)
  case hhalves =>
    unfold Frame.halves
    split
    · show ∀ block ∈ [_], _
      rw [List.forall_mem_singleton, hexactly,
        (scene.pairing_means hplays.shows stage.symbols _).holds_iff]
      intro p hp hlt
      -- only the first of all teams is ever at home
      have hfirst := (Tournament.mem_teamSet.mp (Finset.mem_product.mp hp).1).1
      have hnone : ∀ slot ∈ t.firstHalf,
          ((homeRun last).tally t).game p.2 p.1 slot = 0 := fun slot _ =>
        if_neg fun h => by
          have h := homeRun_iff.mp h
          omega
      show _ ≤ _
      rw [Finset.sum_add_distrib, Finset.sum_eq_zero hnone, add_zero]
      exact sum_homeRun_slots t t.firstHalf p.1 p.2
    · exact List.forall_mem_nil _
  case hmirror =>
    rw [Frame.mirror, if_neg (by simp [hsymmetric])]
    exact List.forall_mem_nil _

/-- The home games of a run up to half of the slots are more than their counter may be. -/
theorem Stage.not_completes_homeRun (hbalance : t.hasBalance = true) (hphased : t.phased = true)
    (hlast : 0 ≤ last) (hslots : last < t.slotCount) (hteams : last + 1 < t.teamCount)
    (hhalf : (t.slotCount : Int) < 2 * (last + 1)) {after : Assignment} :
    ¬ (t.program options).Completes ["bh", "ba", "hg"] ["br_count", "hg_count"] env
      values after := by
  intro h
  have hnames := t.names_apart options
  have hafter : after.Plays t (homeRun last) := fun p hp slot hslot => by
    rw [h.agree "x" (by decide)]
    exact hplays p hp slot hslot
  have hteam : (0 : Int) ∈ t.teamSet := Tournament.mem_teamSet.mpr (by omega)
  have hslot : last ∈ t.slotSet := Tournament.mem_slotSet.mpr ⟨hlast, hslots⟩
  have hcounted := (stage.homeGames_eq_iff hbalance hnames hafter).mp (h.holds.mono (by simp))
    0 hteam last hslot
  have hadmits : (t.program options).AdmitsOn ["hg"] env after :=
    fun decl hdecl hname =>
      h.admits decl hdecl (List.mem_cons_of_mem _ (List.mem_cons_of_mem _ hname))
  obtain ⟨-, -, hbound⟩ :=
    (stage.admitsOn_homeGames hbalance hnames (after.shows_tally t)).mp hadmits
    (0, last) (Finset.mem_product.mpr ⟨hteam, hslot⟩)
  rw [if_pos hphased] at hbound
  have hbound : ((homeRun last).homeGames t 0 last : Rat) ≤ t.slotCount / 2 :=
    hcounted ▸ hbound.trans (min_le_right _ _)
  have hmany : (last + 1 : Rat) ≤ (homeRun last).homeGames t 0 last := by
    exact_mod_cast homeGames_homeRun hlast hslots hteams
  have hhalf : (t.slotCount : Rat) < 2 * (last + 1) := by exact_mod_cast hhalf
  linarith

end Run

/-- The games of some values can be given breaks and home games within the bounds of their
variables. -/
def Zimpl.Program.CompletesAll (program : Program) (env : Env) : Prop :=
  ∀ values, program.AdmitsOn ["x"] env values →
    program.HoldsOn ["c1", "c2", "c3", "c4", "c5"] env values →
      ∃ after, program.Completes ["bh", "ba", "hg"] ["br_count", "hg_count"] env values after

section Exactness

variable {t : Tournament} {options : Options} {env : Env}

theorem Stage.not_completesAll (stage : Stage t options env) (htwo : 2 ≤ t.teamCount)
    (hcut : t.CutsHomeGames options) : ¬ (t.program options).CompletesAll env := by
  obtain ⟨hbalance, hphased, hfeasible, hsymmetric, hsome, hfew⟩ := hcut
  let last : Int := (t.slotCount / 2 : Nat)
  have shows := ((homeRun last).tally t).shows_assignment t
  have hnames := t.names_apart options
  intro hall
  obtain ⟨after, h⟩ := hall ((homeRun last).tally t).assignment
    ((Frame.admitsOn_games hnames stage.toScene).mpr fun q _ =>
      (homeRun last).game_eq_zero_or_one t q.1.1 q.1.2 q.2)
    (stage.holdsOn_homeRun shows.game htwo hfeasible hsymmetric)
  exact stage.not_completes_homeRun shows.game hbalance hphased (by omega) (by omega) (by omega)
    (by omega) h

end Exactness

/-- Counting breaks and home games excludes no timetable that the rows on games, halves and the
mirror allow, unless the season is phased, may stay short, and has fewer slots than a double round
robin. -/
theorem Tournament.completesAll_iff {read? : Markup.Reader} {text : String} {t : Tournament}
    {options : Options} {program : Program} (hread : Tournament.readBy read? text = .ok t)
    (hprogram : t.formulate options = .ok program) :
    ∃ env, program.env? = some env ∧ (program.CompletesAll env ↔ ¬ t.CutsHomeGames options) := by
  have htwo := (Tournament.wellFormed_of_readBy hread).two_le
  obtain ⟨rfl, hcheck⟩ := Tournament.of_formulate hprogram
  have hnames := t.names_apart options
  obtain ⟨env, henv, stage⟩ := Tournament.stage hcheck
  refine ⟨env, henv, fun hall hcut => stage.not_completesAll htwo hcut hall, ?_⟩
  intro hcut values hgames h
  have hplays := stage.toScene.plays_timetable hnames hgames
  exact ⟨_, stage.completes_withCounters hplays (stage.atMostDaily hplays h)
    fun hbalance hphased => stage.homeGames_le_half htwo hcut hbalance hphased hplays h⟩

/-- Four teams in four slots, two of them with home games to balance. -/
def shortQuartetText : String :=
  "<Instance><gameMode>P</gameMode><team id=\"0\"/><team id=\"1\"/><team id=\"2\"/><team id=\"3\"/>"
    ++ "<slot id=\"0\"/><slot id=\"1\"/><slot id=\"2\"/><slot id=\"3\"/><Constraints>"
    ++ "<FA2 intp=\"4\" mode=\"H\" penalty=\"1\" slots=\"0\" teams=\"0;1\" type=\"HARD\"/>"
    ++ "</Constraints></Instance>"

def shortQuartetTournament : Tournament where
  name := none
  teams := [0, 1, 2, 3]
  slots := [0, 1, 2, 3]
  phased := true
  rules := [⟨.hard, .fa2 ⟨4, [0, 1], [0]⟩⟩]

theorem read_shortQuartetText : Tournament.read shortQuartetText = .ok shortQuartetTournament :=
  Tournament.read_eq_ok (toList_append_ofList (toList_append_ofList (toList_append_ofList
    String.toList_ofList))) (by decide +kernel)

/-- Where the halves mirror each other, a short season loses nothing. -/
theorem completesAll_shortQuartet :
    let program := shortQuartetTournament.program { symmetric := true, feasibility := true }
    ∃ env, program.env? = some env ∧ program.CompletesAll env := by
  intro program
  have hprogram : shortQuartetTournament.formulate { symmetric := true, feasibility := true } =
      .ok program := rfl
  obtain ⟨env, henv, hiff⟩ := Tournament.completesAll_iff read_shortQuartetText hprogram
  exact ⟨env, henv, hiff.mpr fun hcut => nomatch hcut.2.2.2.1⟩

/-- Otherwise no counter is left for a team that is at home in three of the four slots. -/
theorem exists_not_completesAll : ∃ text t, Tournament.read text = .ok t ∧
    ∃ program, t.formulate { feasibility := true } = .ok program ∧
      ∃ env, program.env? = some env ∧ ¬ program.CompletesAll env := by
  have hprogram : shortQuartetTournament.formulate { feasibility := true } =
      .ok (shortQuartetTournament.program { feasibility := true }) := rfl
  obtain ⟨-, hcheck⟩ := Tournament.of_formulate hprogram
  obtain ⟨env, henv, stage⟩ := Tournament.stage hcheck
  exact ⟨shortQuartetText, _, read_shortQuartetText, _, hprogram, env, henv,
    stage.not_completesAll (by decide) ⟨by decide, rfl, rfl, rfl, by decide, by decide⟩⟩

end RoundRobin
