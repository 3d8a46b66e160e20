import RoundRobin.Proofs.Meaning.Rows
import RoundRobin.Proofs.Reframing

/-! Rows that may be left out. Where each game takes place once and each team plays once in each
slot, the slots are full, the number of all games is fixed, and of an odd set of teams someone plays
a team outside it. So options on such rows do not change what values a program holds of. -/

namespace RoundRobin

open Zimpl

/-- Options that formulate the same rules for the same seasons. -/
structure Options.AgreeOnSeasons (a b : Options) : Prop extends a.AgreeOnRules b where
  symmetric : a.symmetric = b.symmetric
  feasibility : a.feasibility = b.feasibility
  cutoff : a.cutoff = b.cutoff

/-- The rows that count the games of a slot, all games, and the games between an odd set of teams
and the others. -/
def Frame.countRows (t : Tournament) (options : Options) : List Subto :=
  ⟨"c2", [.over ["s"] "S"], [⟨.sumOver (.over ["m", "n"] "M") (playedIn "m" "n" "s"),
      Frame.exactly options, .const "matches_per_slot"⟩]⟩
    :: Program.subtos (Frame.fixedCount options)
    ++ Program.subtos ((Frame.oddFamilies t options).flatMap
        fun (name, size) => Frame.oddFamily name size)

/-- The names of those rows. -/
def Frame.countNames (t : Tournament) (options : Options) : List String :=
  "c2" :: (if options.fixGameCount then ["f1"] else []) ++ (Frame.oddFamilies t options).map (·.1)

/-- The rows that count games are in a program as the options say, follow from the rows on single
games and on the days of single teams, and can be left out. -/
structure Tournament.ImpliesCounts (t : Tournament) (options : Options) (program : Program)
    (env : Env) : Prop where
  emitted : Frame.countNames t options ⊆ (Program.subtos program).map (·.name)
  implied : ∀ values, program.AdmitsOn ["x"] env values → program.HoldsOn ["c1", "c3"] env values →
    program.HoldsOn (Frame.countNames t options) env values
  crossing : ∀ values, program.AdmitsOn ["x"] env values → program.HoldsOn ["c1", "c3"] env values →
    ∀ teams ⊆ t.teamSet, Odd teams.card → ∀ slot ∈ t.slotSet, ∃ p ∈ teams ×ˢ (t.teamSet \ teams),
      values "x" (Tuple.three (p, slot)) = 1 ∨ values "x" (Tuple.three (p.swap, slot)) = 1
  switching : ∀ oddSets fixGameCount, ∃ other,
    t.formulate { options with oddSets, fixGameCount } = .ok other ∧
      ∀ values, other.Holds values ↔ program.Holds values

section Agreement

variable {a b : Options} {t : Tournament} {tally : Tally} {plays : Timetable}

theorem Options.AgreeOnSeasons.symm (h : a.AgreeOnSeasons b) : b.AgreeOnSeasons a :=
  ⟨⟨h.soft.symm, h.minPenalty.symm⟩, h.symmetric.symm, h.feasibility.symm, h.cutoff.symm⟩

theorem Options.AgreeOnSeasons.goal_eq (h : a.AgreeOnSeasons b) (charges : List Linear) :
    goal a charges = goal b charges := by
  rw [goal, goal, h.feasibility, h.soft, h.cutoff]

theorem Options.AgreeOnRules.places_eq (h : a.AgreeOnRules b) (demand : Demand) :
    demand.places t a = demand.places t b := by
  cases demand with
  | ga1 bound => rw [Demand.places, Demand.places, h.minPenalty]
  | _ => rfl

theorem Options.AgreeOnRules.short_eq (h : a.AgreeOnRules b) (demand : Demand) (place : Place) :
    demand.short t tally a place = demand.short t tally b place := by
  cases demand with
  | ga1 bound => rw [Demand.short, Demand.short, h.minPenalty]
  | _ => rfl

theorem Timetable.IsSeason.of_agree (h : a.AgreeOnSeasons b) (season : plays.IsSeason t a) :
    plays.IsSeason t b where
  once := season.once
  daily := season.daily
  halves hphased hsymmetric := season.halves hphased (h.symmetric.trans hsymmetric)
  mirror hsymmetric := season.mirror (h.symmetric.trans hsymmetric)

/-- What a program asks where its games are those of a timetable depends on the rows of its options
only as far as seasons do. -/
theorem Tournament.Met.of_agree (h : a.AgreeOnSeasons b) (htwo : 2 ≤ t.teamCount)
    {values : Assignment} (hgame : tally.game = (plays.tally t).game)
    (met : t.Met a values tally) : t.Met b values tally where
  games := by
    have hseason := Timetable.isSeason_of_gamesMet (hgame ▸ met.games)
    exact hgame ▸ (hseason.of_agree h).gamesMet htwo
  counts := met.counts
  admits := met.admits
  shares hsoft kind hkind :=
    have hshares := met.shares (h.soft.trans hsoft) kind hkind
    ⟨hshares.whole, fun hga1 hseparate => hshares.below hga1 (h.minPenalty.trans hseparate)⟩
  rules rule hrule hskip place hplace := by
    rw [← h.short_eq]
    exact met.rules rule hrule ((h.isSkipped_eq rule).trans hskip) place (h.places_eq _ ▸ hplace)

end Agreement

section Charges

variable {t : Tournament} {a b options : Options} {first second : Env} {values : Assignment}

/-- A charge has the same value in two environments in which its violation has. -/
theorem Strength.value?_charge {strength : Strength} {violation : Violation}
    {subtos : Option Linear → List Subto} {charge : Linear}
    (h : charge ∈ (strength.relax violation subtos).charges) (htotal : strength.isSoft = true →
      violation.total.value? first values = violation.total.value? second values) :
    charge.value? first values = charge.value? second values := by
  cases strength with
  | hard => exact nomatch h
  | soft penalty =>
    obtain rfl := List.mem_singleton.mp h
    rw [Linear.value?, Linear.value?, htotal rfl]

theorem MeetingBound.mem_charges {bound : MeetingBound} {strength : Strength} {rule : Numbered}
    {charge : Linear} (h : charge ∈ (bound.fragment options strength rule).charges) :
    ∃ array subtos, charge ∈ (strength.relax (.member array rule.softPlace) subtos).charges ∧
      (array = "ga1_viol" ∨ array = "ga1_min_viol" ∧ options.minPenalty = .separate) := by
  unfold MeetingBound.fragment MeetingBound.most MeetingBound.least at h
  split at h
  · exact ⟨_, _, h, .inl rfl⟩
  · cases hpenalty : options.minPenalty with
    | shared =>
      rw [hpenalty] at h
      exact ⟨_, _, (List.mem_append.mp h).resolve_right (List.not_mem_nil), .inl rfl⟩
    | separate =>
      rw [hpenalty] at h
      rcases List.mem_append.mp h with h | h
      · exact ⟨_, _, h, .inl rfl⟩
      · exact ⟨_, _, h, .inr ⟨rfl, rfl⟩⟩

namespace Numbered

variable {rule : Numbered}

/-- Only a rule on meetings may have two charges. -/
theorem length_charges_le (hskip : rule.isSkipped options = false) (hkind : rule.rule.kind ≠ .ga1) :
    (rule.fragment options).charges.length ≤ 1 := by
  have hfair := fair_fragment hskip
  cases hstrength : rule.rule.strength with
  | hard =>
    rw [hstrength] at hfair
    rw [Fragment.ChargesNothing.charges hfair]
    exact Nat.zero_le 1
  | soft penalty =>
    rw [hstrength] at hfair
    rw [← (Fragment.ChargesOnce.charges hfair).length_eq]
    unfold charged
    cases hdemand : rule.rule.demand with
    | ga1 bound => exact absurd (congrArg Demand.kind hdemand) hkind
    | br1 breaks | br2 breaks =>
      dsimp only
      split
      · exact Nat.zero_le 1
      · exact le_rfl
    | _ => exact le_rfl

section Stages

variable (h : a.AgreeOnRules b) (stage : Stage t a first) (stage' : Stage t b second)
  (hmem : rule ∈ t.numbered) (hskip : rule.isSkipped a = false) (hskip' : rule.isSkipped b = false)
  {charge : Linear} (hcharge : charge ∈ (rule.fragment a).charges)
include h stage stage' hmem hskip hskip' hcharge

theorem value?_charge_of_ga1 (hga1 : rule.rule.kind = .ga1) :
    charge.value? first values = charge.value? second values := by
  obtain ⟨bound, hdemand⟩ : ∃ bound, rule.rule.demand = .ga1 bound := by
    cases hdemand : rule.rule.demand with
    | ga1 bound => exact ⟨bound, rfl⟩
    | _ => exact absurd hga1 (by simp [Rule.kind, hdemand, Demand.kind])
  rw [fragment_of_not_skipped hskip, hdemand] at hcharge
  obtain ⟨array, subtos, hcharge, harray⟩ := MeetingBound.mem_charges hcharge
  refine Strength.value?_charge hcharge fun hsoft => ?_
  have habove := shared_of_soft stage.toScene hmem hga1 (by decide) hskip hsoft
  have habove' := shared_of_soft stage'.toScene hmem hga1 (by decide) hskip' hsoft
  rcases harray with rfl | ⟨rfl, hseparate⟩
  · exact (value?_member habove).trans (value?_member habove').symm
  · have hbelow := ga1_min_of_soft stage.toScene hmem hga1 hskip hsoft hseparate
    have hbelow' := ga1_min_of_soft stage'.toScene hmem hga1 hskip' hsoft
      (h.minPenalty.symm.trans hseparate)
    exact (value?_member ⟨hbelow, habove.2⟩).trans (value?_member ⟨hbelow', habove.2⟩).symm

/-- A single charge of a rule has the value of what the rule pays in all. -/
theorem value?_charge_of_ne_ga1 (hcheck : rule.check a = .ok ()) (hkind : rule.rule.kind ≠ .ga1) :
    charge.value? first values = charge.value? second values := by
  have hsingle : (rule.fragment a).charges = [charge] := by
    obtain ⟨only, honly⟩ := List.length_eq_one_iff.mp
      (le_antisymm (length_charges_le hskip hkind) (List.length_pos_of_mem hcharge))
    rw [honly] at hcharge ⊢
    rw [List.mem_singleton.mp hcharge]
  have hvalue : Linear.sumOf? first values _ = _ := charges_value stage.toScene stage.symbols hmem
    hcheck hskip (stage.known rule hmem hskip)
  have hvalue' : Linear.sumOf? second values _ = _ := charges_value stage'.toScene stage'.symbols
    hmem (h.check_eq ▸ hcheck) hskip' (stage'.known rule hmem hskip')
  rw [hsingle, Linear.sumOf?_singleton] at hvalue
  rw [← h.fragment_eq, hsingle, Linear.sumOf?_singleton, ← h.places_eq] at hvalue'
  exact hvalue.trans hvalue'.symm

end Stages

/-- Options that agree on rules give them charges of the same values, whatever else they declare. -/
theorem value?_charge (h : a.AgreeOnRules b) (stage : Stage t a first) (stage' : Stage t b second)
    (hmem : rule ∈ t.numbered) (hcheck : rule.check a = .ok ()) {charge : Linear}
    (hcharge : charge ∈ (rule.fragment a).charges) :
    charge.value? first values = charge.value? second values := by
  cases hskip : rule.isSkipped a with
  | true =>
    rw [fragment, if_pos hskip] at hcharge
    exact absurd hcharge List.not_mem_nil
  | false =>
    have hskip' : rule.isSkipped b = false := (h.isSkipped_eq rule).symm.trans hskip
    by_cases hga1 : rule.rule.kind = .ga1
    · exact value?_charge_of_ga1 h stage stage' hmem hskip hskip' hcharge hga1
    · exact value?_charge_of_ne_ga1 h stage stage' hmem hskip hskip' hcharge hcheck hga1

end Numbered

/-- The row of a cutoff says the same behind all declarations of two programs with the same
rules. -/
theorem Stage.goal_holds_iff (h : a.AgreeOnSeasons b) (stage : Stage t a first)
    (stage' : Stage t b second) (hcheck : ∀ rule ∈ t.numbered, rule.check a = .ok ()) :
    (∀ block ∈ Program.subtos (goal a (t.charges a)), block.Holds first values) ↔
      ∀ block ∈ Program.subtos (goal b (t.charges b)), block.Holds second values := by
  rw [← h.goal_eq, ← h.charges_eq]
  refine forall₂_congr fun block hblock => ?_
  obtain ⟨-, cutoff, -, rfl⟩ := exists_cutoff_of_mem_subtos hblock
  have hbounded : Linear.sumOf? first values (cutoff.bounded (t.charges a)) =
      Linear.sumOf? second values (cutoff.bounded (t.charges a)) :=
    Linear.sumOf?_congr fun charge hcharge => by
      obtain ⟨rule, hmem, hcharge⟩ := List.mem_flatMap.mp ((List.drop_subset _ _) hcharge)
      exact Numbered.value?_charge h.toAgreeOnRules stage stage' hmem (hcheck rule hmem) hcharge
  rw [Subto.holds_row, Subto.holds_row, Row.Holds, Row.Holds, Linear.value?_plus,
    Linear.value?_plus, hbounded]
  rfl

end Charges

section Games

variable {t : Tournament} {options : Options} {env : Env} {values : Assignment}

/-- The games whose variables have the value one. -/
def Zimpl.Assignment.timetable (values : Assignment) : Timetable :=
  fun home away slot => values "x" (Tuple.three ((home, away), slot)) = 1

theorem Scene.plays_timetable (scene : Scene t options env)
    (hnames : (t.program options).NamedApart)
    (h : (t.program options).AdmitsOn ["x"] env values) : values.Plays t values.timetable := by
  intro p hp slot hslot
  have hbinary := (Frame.admitsOn_games hnames scene).mp h (p, slot)
    (Finset.mem_product.mpr ⟨hp, hslot⟩)
  rcases hbinary with hzero | hone
  · rw [hzero, if_neg (by simp [Assignment.timetable, hzero])]
  · rw [hone, if_pos (by simp [Assignment.timetable, hone])]

/-- Each team plays once in each slot of a timetable that is read off values of zero and one. -/
theorem Scene.daily_timetable (scene : Scene t options env) (hsymbols : env.symbols = [])
    (hnames : (t.program options).NamedApart) (hfull : options.feasibility = false)
    (hadmits : (t.program options).AdmitsOn ["x"] env values)
    (h : (t.program options).HoldsOn ["c1", "c3"] env values) :
    ∀ slot ∈ t.slotSet, ∀ team ∈ t.teamSet,
      ∑ other ∈ t.teamSet.erase team, (values.timetable.tally t).game team other slot
        + ∑ other ∈ t.teamSet.erase team, (values.timetable.tally t).game other team slot = 1 := by
  have hdaily := scene.daily_of_holdsOn (scene.plays_timetable hnames hadmits).shows hsymbols h
    (by simp)
  rwa [Frame.exactly_of_full hfull] at hdaily

theorem Tournament.holds_of_agree {a b : Options} (h : a.AgreeOnSeasons b) (hwell : t.WellFormed)
    (hcheck : ∀ rule ∈ t.numbered, rule.check a = .ok ()) (hfull : a.feasibility = false)
    (hholds : (t.program a).Holds values) : (t.program b).Holds values := by
  have hcheck' : ∀ rule ∈ t.numbered, rule.check b = .ok () := h.check_eq ▸ hcheck
  obtain ⟨env, henv, stage⟩ := Tournament.stage hcheck
  obtain ⟨env', henv', stage'⟩ := Tournament.stage hcheck'
  have hplays := stage.toScene.plays_timetable (t.names_apart a) (hholds.admitsOn henv ["x"])
  obtain ⟨met, hgoal⟩ := (stage.holds_iff henv hplays.shows hwell hcheck hfull).mp hholds
  exact (stage'.holds_iff henv' hplays.shows hwell hcheck' (h.feasibility.symm.trans hfull)).mpr
    ⟨met.of_agree h hwell.two_le rfl, (stage.goal_holds_iff h stage' hcheck).mp hgoal⟩

/-- The rows that count games are some of those of the frame. -/
theorem Frame.countRows_subset (t : Tournament) (options : Options) :
    Frame.countRows t options ⊆ Program.subtos (t.program options) := by
  intro block hblock
  refine Frame.mem_subtos_program (Frame.mem_subtos.mpr (.inl ?_))
  simp only [Frame.gameBlocks, List.append_assoc]
  rcases List.mem_append.mp hblock with hblock | hodd
  · rcases List.mem_cons.mp hblock with rfl | hfixed
    · exact List.mem_append_left _ (.tail _ (.head _))
    · exact List.mem_append_right _ (List.mem_append_left _ hfixed)
  · exact List.mem_append_right _ (List.mem_append_right _ (List.mem_append_left _ hodd))

theorem Frame.map_name_countRows (t : Tournament) (options : Options) :
    (Frame.countRows t options).map (·.name) = Frame.countNames t options := by
  rw [Frame.countRows, Frame.countNames, List.map_append, Frame.names_oddFamilies, List.map_cons,
    Frame.fixedCount]
  cases options.fixGameCount <;> rfl

/-- What the rows that count games say of a timetable in which each team plays once in each slot. -/
theorem Scene.countRows_hold {plays : Timetable} (scene : Scene t options env)
    (hsymbols : env.symbols = []) (hplays : values.Plays t plays)
    (hfull : options.feasibility = false) (hdaily : ∀ slot ∈ t.slotSet, ∀ team ∈ t.teamSet,
      ∑ other ∈ t.teamSet.erase team, (plays.tally t).game team other slot
        + ∑ other ∈ t.teamSet.erase team, (plays.tally t).game other team slot = 1) :
    ∀ block ∈ Frame.countRows t options, block.Holds env values := by
  have shows := hplays.shows
  rw [Frame.countRows, List.forall_mem_append, List.forall_mem_cons, Frame.exactly_of_full hfull]
  refine ⟨⟨?_, ?_⟩, ?_⟩
  · exact (scene.full_means shows hsymbols .eq).holds_iff.mpr (sum_slot_of_daily hdaily)
  · exact (scene.fixedCount_mean shows hsymbols).holds_iff.mpr fun _ => sum_games_of_daily hdaily
  · refine (scene.oddFamilies_mean shows hsymbols).holds_iff.mpr
      fun family hfamily slot hslot set hset => ?_
    obtain ⟨hsub, hcard⟩ := Finset.mem_powersetCard.mp hset
    exact Timetable.one_le_cut_of_daily (hdaily slot hslot) hsub
      (hcard ▸ Frame.odd_of_mem_oddFamilies hfamily)

/-- A cut of at least one game has a game. -/
theorem Timetable.exists_crossing {plays : Timetable} {teams others : Finset Int} {slot : Int}
    (h : 1 ≤ ∑ p ∈ teams ×ˢ others,
      ((plays.tally t).game p.1 p.2 slot + (plays.tally t).game p.2 p.1 slot)) :
    ∃ p ∈ teams ×ˢ others, plays p.1 p.2 slot = true ∨ plays p.2 p.1 slot = true := by
  obtain ⟨p, hp, hne⟩ := Finset.exists_ne_zero_of_sum_ne_zero (zero_lt_one.trans_le h).ne'
  refine ⟨p, hp, ?_⟩
  by_contra hnone
  obtain ⟨hhome, haway⟩ := not_or.mp hnone
  exact hne (by simp [Timetable.tally, hhome, haway])

end Games

/-- The rows that count games may be left out of a program that schedules all games. -/
theorem Tournament.impliesCounts {read? : Markup.Reader} {text : String} {t : Tournament}
    {options : Options} {program : Program} (hread : Tournament.readBy read? text = .ok t)
    (hfull : options.feasibility = false) (hprogram : t.formulate options = .ok program) :
    ∃ env, program.env? = some env ∧ t.ImpliesCounts options program env := by
  have hwell := Tournament.wellFormed_of_readBy hread
  obtain ⟨rfl, hcheck⟩ := Tournament.of_formulate hprogram
  have hnames := t.names_apart options
  obtain ⟨env, henv, stage⟩ := Tournament.stage hcheck
  have scene := stage.toScene
  refine ⟨env, henv, ?_⟩
  constructor
  case emitted =>
    rw [← Frame.map_name_countRows]
    exact List.map_subset _ (Frame.countRows_subset t options)
  case implied =>
    intro values hadmits h
    rw [← Frame.map_name_countRows, hnames.holdsOn_map (Frame.countRows_subset t options)]
    exact scene.countRows_hold stage.symbols (scene.plays_timetable hnames hadmits) hfull
      (scene.daily_timetable stage.symbols hnames hfull hadmits h)
  case crossing =>
    intro values hadmits h teams hsub hodd slot hslot
    have hdaily := scene.daily_timetable stage.symbols hnames hfull hadmits h slot hslot
    obtain ⟨p, hp, hgame⟩ := Timetable.exists_crossing
      (Timetable.one_le_cut_of_daily hdaily hsub (Nat.odd_iff.mp hodd))
    exact ⟨p, hp, hgame.imp of_decide_eq_true of_decide_eq_true⟩
  case switching =>
    intro oddSets fixGameCount
    have hagree : options.AgreeOnSeasons { options with oddSets, fixGameCount } :=
      ⟨⟨rfl, rfl⟩, rfl, rfl, rfl⟩
    have hcheck' : ∀ rule ∈ t.numbered,
        rule.check { options with oddSets, fixGameCount } = .ok () :=
      hagree.check_eq ▸ hcheck
    exact ⟨_, Tournament.formulate_eq_ok hcheck', fun values =>
      ⟨Tournament.holds_of_agree hagree.symm hwell hcheck' hfull,
        Tournament.holds_of_agree hagree hwell hcheck hfull⟩⟩

/-- Four teams and six slots. -/
def quartetText : String :=
  "<Instance><team id=\"0\"/><team id=\"1\"/><team id=\"2\"/><team id=\"3\"/><slot id=\"0\"/>"
    ++ "<slot id=\"1\"/><slot id=\"2\"/><slot id=\"3\"/><slot id=\"4\"/><slot id=\"5\"/></Instance>"

def quartetTournament : Tournament where
  name := none
  teams := [0, 1, 2, 3]
  slots := [0, 1, 2, 3, 4, 5]
  phased := false
  rules := []

theorem read_quartetText : Tournament.read quartetText = .ok quartetTournament :=
  Tournament.read_eq_ok (toList_append_ofList String.toList_ofList) (by decide +kernel)

/-- The rows on the number of games and on the sets of three of four teams follow, and without them
the program holds of the same values. There are such values. -/
theorem impliesCounts_quartet :
    let program :=
      quartetTournament.program { soft := false, oddSets := .three, fixGameCount := true }
    ∃ env, program.env? = some env ∧
      ["c2", "f1", "c6"] ⊆ (Program.subtos program).map (·.name) ∧
      (∀ values, program.AdmitsOn ["x"] env values → program.HoldsOn ["c1", "c3"] env values →
        program.HoldsOn ["c2", "f1", "c6"] env values) ∧
      (∀ values, (quartetTournament.program { soft := false }).Holds values ↔
        program.Holds values) ∧
      ∃ values, program.Holds values := by
  intro program
  have hprogram : quartetTournament.formulate
      { soft := false, oddSets := .three, fixGameCount := true } = .ok program := rfl
  obtain ⟨env, henv, hcounts⟩ := Tournament.impliesCounts read_quartetText rfl hprogram
  obtain ⟨other, hother, hswitch⟩ := hcounts.switching .none false
  obtain rfl : quartetTournament.program { soft := false } = other := Except.ok.inj hother
  refine ⟨env, henv, hcounts.emitted, hcounts.implied, hswitch, ?_⟩
  have hwell := Tournament.wellFormed_of_readBy read_quartetText
  have hseason := Circle.isSeason hwell.two_le hwell.even rfl
    { soft := false, oddSets := .three, fixGameCount := true }
  exact ⟨_, hseason.holds hwell (Tournament.of_formulate hprogram).2 rfl (fun h => nomatch h)
    (Tally.shows_assignment _ _) (fun h => nomatch h) fun rule hrule => nomatch hrule⟩

end RoundRobin
