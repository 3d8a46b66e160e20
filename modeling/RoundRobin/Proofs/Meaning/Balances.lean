import RoundRobin.Proofs.Meaning.Rows
import RoundRobin.Proofs.Meaning.Soft

/-! Home games and their counters. The rows of a frame leave the counters no choice, and what they
count keeps their bounds: a team plays at most once in each slot, and in a full season at home in
half of the slots. The rows of a balance rule then compare the home games of each pair of teams. -/

namespace RoundRobin

open Zimpl

/-- The home games of a team in the slots up to one. -/
def Timetable.homeGames (plays : Timetable) (t : Tournament) (team slot : Int) : Nat :=
  Finset.card {game ∈ t.teamSet.erase team ×ˢ t.slotSet | game.2 ≤ slot ∧ plays team game.1 game.2}

/-- The counters of home games count them, within their bounds, and balance rules compare them. -/
structure Tournament.HomeGamesExact (t : Tournament) (options : Options) (program : Program)
    (env : Env) : Prop where
  counted : ∀ values plays, values.Plays t plays → (program.HoldsOn ["hg_count"] env values ↔
    ∀ team ∈ t.teamSet, ∀ slot ∈ t.slotSet,
      values "hg" (Tuple.two (team, slot)) = plays.homeGames t team slot)
  bounded : ∀ values plays, values.Plays t plays → program.HoldsOn ["c1", "c2", "c3"] env values →
    ∀ team ∈ t.teamSet, ∀ slot ∈ t.slotSet, (plays.homeGames t team slot : Rat) ≤
      if t.phased then min (slot + 1 : Rat) (t.slotCount / 2) else slot + 1
  /-- These are the bounds that the counters are declared with. -/
  declared : "hg" ∈ program.varDecls.map (·.name) ∧ ∀ values, program.AdmitsOn ["hg"] env values ↔
    ∀ q ∈ t.teamSet ×ˢ t.slotSet, (values "hg" (Tuple.two q)).isInt = true ∧
      0 ≤ values "hg" (Tuple.two q) ∧ values "hg" (Tuple.two q) ≤
        if t.phased then min (q.2 + 1 : Rat) (t.slotCount / 2) else q.2 + 1
  admitted : ∀ values plays, values.Plays t plays →
    program.HoldsOn ["c1", "c2", "c3", "hg_count"] env values → program.AdmitsOn ["hg"] env values
  balanced : ∀ rule ∈ t.numbered, ∀ balance, rule.rule.demand = .fa2 balance →
    rule.isEmitted options = true → ∀ values plays, values.Plays t plays →
      program.HoldsOn ["hg_count"] env values → (program.HoldsOn [rule.name] env values ↔
        ∀ pair ∈ unorderedPairs balance.teams, ∀ slot ∈ balance.slots,
          |(plays.homeGames t pair.1 slot : Rat) - plays.homeGames t pair.2 slot| ≤ balance.limit
            + rule.rule.strength.slack values rule.violationName (Tuple.two pair))
  /-- Each pair is compared once in each slot. -/
  once : ∀ rule ∈ t.numbered, ∀ balance, rule.rule.demand = .fa2 balance →
    rule.isEmitted options = true → ∃ block ∈ program.subtos, block.name = rule.name ∧
      block.Asks env (unorderedPairs balance.teams ×ˢ balance.slots.toFinset) fun q values =>
        HomeBalance.lead values.tally q.1 q.2 ≤
          balance.limit + rule.rule.strength.slack values rule.violationName (Tuple.two q.1)

section Rows

variable {t : Tournament} {options : Options} {env : Env} {values : Assignment} {plays : Timetable}
  {rule : Numbered}

/-- The block of a balance rule compares each pair of listed teams once in each listed slot. -/
theorem HomeBalance.asks (scene : Scene t options env) (hsymbols : env.symbols = [])
    (hbalance : t.hasBalance = true) {balance : HomeBalance}
    (hteams : ∀ team ∈ balance.teams, team ∈ t.teamSet)
    (hslots : ∀ slot ∈ balance.slots, slot ∈ t.slotSet)
    (hpairs : (SetTerm.name rule.pairSet).Lists env Tuple.two (unorderedPairs balance.teams))
    (hviolation : rule.rule.strength.isSoft = true →
      env.Ranges rule.violationName Tuple.two (unorderedPairs balance.teams)) :
    ∀ block ∈ (balance.fragment rule.rule.strength rule).subtos,
      block.Asks env (unorderedPairs balance.teams ×ˢ balance.slots.toFinset) fun q values =>
        HomeBalance.lead values.tally q.1 q.2 ≤
          balance.limit + rule.rule.strength.slack values rule.violationName (Tuple.two q.1) := by
  have hruns : (Index.over ["m", "n"] (SetTerm.name ("FA2_" ++ toString rule.number))).Runs env
      Tuple.two (fun q => (env.bind "m" q.1).bind "n" q.2) (unorderedPairs balance.teams) :=
    Index.runs_two hpairs (by simp [hsymbols]) (by simp [hsymbols]) (by decide)
  show ∀ block ∈ (rule.rule.strength.relax _ _).subtos, _
  rw [Strength.subtos_relax, List.forall_mem_singleton]
  refine ⟨_, hruns.covers_cons fun pair _ =>
    (Index.runs_one (SetTerm.lists_ids _ _) (by simp [hsymbols])).covers, fun q hq values => ?_⟩
  obtain ⟨hpair, hslot⟩ := Finset.mem_product.mp hq
  exact Subto.holds_rows.symm.trans (balance.rows_mean scene (values.shows_tally t) hbalance hteams
    hviolation hpair (hslots _ (List.mem_toFinset.mp hslot)) rule.name).holds_iff

/-- There is a constraint of the rule's name that does. -/
theorem HomeBalance.exists_block (stage : Stage t options env) (hbalance : t.hasBalance = true)
    (hwell : t.WellFormed) {balance : HomeBalance} (hmem : rule ∈ t.numbered)
    (hdemand : rule.rule.demand = .fa2 balance) (hemitted : rule.isEmitted options = true) :
    ∃ block ∈ Program.subtos (t.program options), block.name = rule.name ∧
      block.Asks env (unorderedPairs balance.teams ×ˢ balance.slots.toFinset) fun q values =>
        HomeBalance.lead values.tally q.1 q.2 ≤
          balance.limit + rule.rule.strength.slack values rule.violationName (Tuple.two q.1) := by
  have hskip := (Numbered.isEmitted_iff.mp hemitted).1
  have hkind : rule.rule.kind = .fa2 := congrArg Demand.kind hdemand
  have known := stage.known rule hmem hskip
  have hteams := hwell.teamIds rule.rule (Tournament.rule_mem hmem)
  have hslots := hwell.slotIds rule.rule (Tournament.rule_mem hmem)
  rw [Numbered.Known, hdemand] at known
  rw [hdemand] at hteams hslots
  apply Numbered.exists_block_of_forall hmem hemitted (by rw [hkind]; decide)
  rw [Numbered.fragment_of_not_skipped hskip, hdemand]
  exact HomeBalance.asks stage.toScene stage.symbols hbalance hteams hslots known.1 known.2

/-- Its rows hold if and only if no listed team is too far ahead of another in a listed slot. -/
theorem HomeBalance.holdsOn_iff {tally : Tally} (stage : Stage t options env) (hwell : t.WellFormed)
    (hcheck : ∀ rule ∈ t.numbered, rule.check options = .ok ()) {balance : HomeBalance}
    (hmem : rule ∈ t.numbered) (hdemand : rule.rule.demand = .fa2 balance)
    (hemitted : rule.isEmitted options = true) (shows : values.Shows t tally) :
    (t.program options).HoldsOn [rule.name] env values ↔
      ∀ pair ∈ unorderedPairs balance.teams, ∀ slot ∈ balance.slots,
        HomeBalance.lead tally pair slot ≤ balance.limit
          + rule.rule.strength.slack values rule.violationName (Tuple.two pair) := by
  have hkind : rule.rule.kind = .fa2 := congrArg Demand.kind hdemand
  rw [Numbered.holdsOn_iff stage shows hwell hcheck hmem hemitted (by rw [hkind]; decide)
    (fun hse1 => absurd hkind (by rw [hse1]; decide)), hdemand]
  refine forall₂_congr fun pair _ => forall₂_congr fun slot _ => ?_
  rw [Numbered.slack_eq (Numbered.isEmitted_iff.mp hemitted).2]
  rfl

/-- Where the games are those of a timetable, the counters count its home games. -/
theorem Stage.homeGames_eq_iff (stage : Stage t options env) (hbalance : t.hasBalance = true)
    (hnames : (t.program options).NamedApart) (hplays : values.Plays t plays) :
    (t.program options).HoldsOn ["hg_count"] env values ↔ ∀ team ∈ t.teamSet, ∀ slot ∈ t.slotSet,
      values "hg" (Tuple.two (team, slot)) = plays.homeGames t team slot := by
  rw [Frame.holdsOn_homeGames hnames hbalance,
    (stage.toScene.homeGames_mean hplays.shows stage.symbols).holds_iff]
  refine (forall_prop_of_true hbalance).trans
    (forall₂_congr fun team _ => forall₂_congr fun slot _ => ?_)
  rw [plays.sum_homeGames]
  exact eq_comm

/-- A program shows the home games of a timetable where its counters count them. -/
theorem Zimpl.Assignment.Plays.shows_homeGames (hplays : values.Plays t plays)
    (hcounted : ∀ team ∈ t.teamSet, ∀ slot ∈ t.slotSet,
      values "hg" (Tuple.two (team, slot)) = plays.homeGames t team slot) :
    values.Shows t { values.tally with
      game := (plays.tally t).game, homeGames := (plays.tally t).homeGames } :=
  ⟨hplays, fun _ _ _ _ _ => rfl, fun _ _ _ _ _ => rfl, fun _ => hcounted⟩

/-- The rows on games make a timetable one in which each game takes place once, and each team plays
once in each slot. -/
theorem Stage.homeGames_le (stage : Stage t options env) (htwo : 2 ≤ t.teamCount)
    (hfull : options.feasibility = false) (hplays : values.Plays t plays)
    (h : (t.program options).HoldsOn ["c1", "c2", "c3"] env values) :
    ∀ q ∈ t.teamSet ×ˢ t.slotSet, ((plays.tally t).homeGames q.1 q.2).isInt = true ∧
      0 ≤ (plays.tally t).homeGames q.1 q.2 ∧ (plays.tally t).homeGames q.1 q.2 ≤
        if t.phased then min (q.2 + 1 : Rat) (t.slotCount / 2) else q.2 + 1 := by
  have scene := stage.toScene
  have honce := scene.once_of_holdsOn hplays.shows stage.symbols h (by simp)
  have hdaily := scene.daily_of_holdsOn hplays.shows stage.symbols h (by simp)
  have hslots :=
    scene.slotCount_of_holdsOn hplays.shows stage.symbols h htwo hfull (by simp) (by simp)
  rw [Frame.exactly_of_full hfull] at honce hdaily
  intro q hq
  obtain ⟨hteam, hslot⟩ := Finset.mem_product.mp hq
  refine Timetable.homeGames_admitted
    (Timetable.atMostDaily_iff.mpr fun slot hslot team hteam => (hdaily slot hslot team hteam).le)
    (fun _ team hteam slot => ?_) hteam hslot
  exact (Timetable.eachOnce_iff.mpr honce).homeGames_le_half hslots hteam

theorem Frame.exists_homeCounter (hbalance : t.hasBalance = true) :
    ∃ decl ∈ Program.varDecls (t.program options), decl.name = "hg" ∧
      Program.varDecls (Frame.homeGames t) = [decl] := by
  obtain ⟨decl, hname, hdecls⟩ : ∃ decl : VarDecl, decl.name = "hg" ∧
      Program.varDecls (Frame.homeGames t) = [decl] := by
    simp only [Frame.homeGames, hbalance, if_true]
    exact ⟨_, rfl, rfl⟩
  have hdecl : decl ∈ Program.varDecls (Frame.homeGames t) := hdecls ▸ .head _
  exact ⟨decl, Frame.mem_varDecls_program (Frame.mem_varDecls.mpr (.inr (.inr hdecl))),
    hname, hdecls⟩

/-- The counters are declared with the bounds that home games keep. -/
theorem Stage.admitsOn_homeGames (stage : Stage t options env) (hbalance : t.hasBalance = true)
    (hnames : (t.program options).NamedApart) {tally : Tally} (shows : values.Shows t tally) :
    (t.program options).AdmitsOn ["hg"] env values ↔ ∀ q ∈ t.teamSet ×ˢ t.slotSet,
      (tally.homeGames q.1 q.2).isInt = true ∧ 0 ≤ tally.homeGames q.1 q.2 ∧
        tally.homeGames q.1 q.2 ≤
          if t.phased then min (q.2 + 1 : Rat) (t.slotCount / 2) else q.2 + 1 := by
  obtain ⟨decl, hdecl, hname, hdecls⟩ := Frame.exists_homeCounter hbalance
  have hadmitted := stage.toScene.homeGames_admitted shows stage.symbols
  rw [hdecls, List.forall_mem_singleton, ← hnames.admitsOn_iff hdecl, hname] at hadmitted
  exact hadmitted.trans (forall_prop_of_true hbalance)

end Rows

/-- In a full season the counters of home games count them, within their bounds, and the rows of
each emitted balance rule compare the home games of each pair of teams. -/
theorem Tournament.homeGamesExact {read? : Markup.Reader} {text : String} {t : Tournament}
    {options : Options} {program : Program} (hread : Tournament.readBy read? text = .ok t)
    (hbalance : t.hasBalance = true) (hfull : options.feasibility = false)
    (hprogram : t.formulate options = .ok program) :
    ∃ env, program.env? = some env ∧ t.HomeGamesExact options program env := by
  have hwell := Tournament.wellFormed_of_readBy hread
  obtain ⟨rfl, hcheck⟩ := Tournament.of_formulate hprogram
  have hnames := t.names_apart options
  obtain ⟨env, henv, stage⟩ := Tournament.stage hcheck
  have hcounted := fun values plays (hplays : Assignment.Plays values t plays) =>
    stage.homeGames_eq_iff hbalance hnames hplays
  refine ⟨env, henv, ?_⟩
  constructor
  case counted => exact hcounted
  case bounded =>
    intro values plays hplays h team hteam slot hslot
    exact (stage.homeGames_le hwell.two_le hfull hplays h (team, slot)
      (Finset.mem_product.mpr ⟨hteam, hslot⟩)).2.2
  case declared =>
    obtain ⟨decl, hdecl, hname, -⟩ := Frame.exists_homeCounter hbalance
    exact ⟨List.mem_map.mpr ⟨decl, hdecl, hname⟩,
      fun values => stage.admitsOn_homeGames hbalance hnames (values.shows_tally t)⟩
  case admitted =>
    intro values plays hplays h
    have shows := hplays.shows_homeGames ((hcounted values plays hplays).mp (h.mono (by simp)))
    exact (stage.admitsOn_homeGames hbalance hnames shows).mpr
      (stage.homeGames_le hwell.two_le hfull hplays (h.mono (by simp)))
  case balanced =>
    intro rule hmem balance hdemand hemitted values plays hplays h
    have shows := hplays.shows_homeGames ((hcounted values plays hplays).mp h)
    rw [HomeBalance.holdsOn_iff stage hwell hcheck hmem hdemand hemitted shows]
    rfl
  case once =>
    intro rule hmem balance hdemand hemitted
    exact HomeBalance.exists_block stage hbalance hwell hmem hdemand hemitted

/-- The first team is one home game ahead after slot 0, and level after slot 1. -/
theorem homeGamesExact_softPair :
    let program := softPairTournament.program {}
    ∃ env, program.env? = some env ∧ ∀ values : Assignment,
      values.Plays softPairTournament (inTurn 0 1) → program.HoldsOn ["hg_count"] env values →
        (program.HoldsOn ["fa2_1"] env values ↔ 1 ≤ values "fa2_1_viol" (Tuple.two (0, 1))) := by
  intro program
  have hprogram : softPairTournament.formulate {} = .ok program := rfl
  obtain ⟨env, henv, hexact⟩ := Tournament.homeGamesExact read_softPairText rfl rfl hprogram
  refine ⟨env, henv, fun values hplays hcounted => ?_⟩
  let rule : Numbered := ⟨⟨.soft 3, .fa2 ⟨0, [0, 1], [0, 1]⟩⟩, 1, 1⟩
  have hbalanced :=
    hexact.balanced rule (.tail _ (.tail _ (.head _))) _ rfl rfl values _ hplays hcounted
  have hpairs : unorderedPairs [0, 1] = {(0, 1)} := by decide
  obtain ⟨hahead, hbehind, hlevel, hlevel'⟩ : (inTurn 0 1).homeGames softPairTournament 0 0 = 1 ∧
      (inTurn 0 1).homeGames softPairTournament 1 0 = 0 ∧
      (inTurn 0 1).homeGames softPairTournament 0 1 = 1 ∧
      (inTurn 0 1).homeGames softPairTournament 1 1 = 1 := by decide
  have hname : rule.name = "fa2_1" := by decide
  have hslack : rule.rule.strength.slack values rule.violationName = values "fa2_1_viol" :=
    congrArg values (by decide : rule.violationName = "fa2_1_viol")
  rw [← hname, hbalanced, hpairs, hslack]
  simp only [Finset.mem_singleton, forall_eq, List.forall_mem_cons, hahead, hbehind,
    hlevel, hlevel']
  norm_num
  exact zero_le_one.trans

end RoundRobin
