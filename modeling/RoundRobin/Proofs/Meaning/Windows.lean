import RoundRobin.Proofs.Meaning.Rows
import RoundRobin.Proofs.Range.Program

/-! Windows of slots. The row of a rule on windows knows each window by its last slot and counts
back from there. What it bounds is the games of each listed team in every run of so many slots that
lies within the season, each of them once. -/

namespace RoundRobin

open Zimpl

namespace WindowCap

/-- The games of a team against the opponents in the window that starts in a slot. -/
def gamesFrom (cap : WindowCap) (values : Assignment) (team first : Int) : Rat :=
  ∑ i ∈ Finset.range cap.window, ∑ other ∈ cap.opponents.toFinset.erase team,
    values.tally.meeting cap.side team other (first + i)

/-- The first slots of the windows that lie within the season. -/
def starts (cap : WindowCap) (t : Tournament) : Finset Int :=
  {first ∈ t.slotSet | first + cap.window ≤ t.slotCount}

/-- A team plays no more games in the window that starts in a slot than the bound and the violation
of the last slot of the window allow. -/
def Within (cap : WindowCap) (rule : Numbered) (values : Assignment) (team first : Int) : Prop :=
  cap.gamesFrom values team first ≤ cap.max
    + rule.rule.strength.slack values rule.violationName (Tuple.one (first + cap.window - 1))

/-- A rule on windows bounds the games of each listed team in every window of its length. -/
structure BoundsWindows (cap : WindowCap) (t : Tournament) (rule : Numbered) (program : Program)
    (env : Env) : Prop where
  holds_iff : ∀ values, program.HoldsOn [rule.name] env values ↔
    ∀ team ∈ cap.teams, ∀ first : Int, 0 ≤ first → first + cap.window ≤ t.slotCount →
      cap.Within rule values team first
  /-- There is one row for each listed team and each window. -/
  once : ∃ block ∈ program.subtos, block.name = rule.name ∧ block.rows.length = 1 ∧
    block.Asks env (cap.teams.toFinset ×ˢ cap.starts t) fun q values =>
      cap.Within rule values q.1 q.2
  none : t.slotCount < cap.window → ∀ block ∈ program.subtos, block.name = rule.name →
    Index.expandAll? env block.foralls = some []

variable {t : Tournament} {options : Options} {env : Env} {values : Assignment}
  {rule : Numbered} {cap : WindowCap}

theorem mem_starts {first : Int} (hwindow : 2 ≤ cap.window) :
    first ∈ cap.starts t ↔ 0 ≤ first ∧ first + cap.window ≤ t.slotCount := by
  rw [starts, Finset.mem_filter, Tournament.mem_slotSet]
  omega

/-- Windows are told as well by their first slots as by their last. -/
theorem image_ends (hwindow : 2 ≤ cap.window) (teams : Finset Int) :
    (teams ×ˢ cap.ends t).image (fun q => (q.1, q.2 + 1 - (cap.window : Int))) =
      teams ×ˢ cap.starts t := by
  ext ⟨team, first⟩
  simp only [starts, ends, Finset.mem_image, Finset.mem_product, Finset.mem_filter, Prod.mk.injEq,
    Prod.exists, Tournament.mem_slotSet]
  constructor
  · rintro ⟨_, last, ⟨hteam, hlast⟩, rfl, rfl⟩
    exact ⟨hteam, by omega⟩
  · rintro ⟨hteam, hfirst⟩
    exact ⟨team, first + cap.window - 1, ⟨hteam, by omega⟩, rfl, by omega⟩

/-- The games that a row counts back from the last slot of a window are those in the window. -/
theorem games_eq_gamesFrom (values : Assignment) (team : Int) {last : Int}
    (hlast : last ∈ cap.ends t) :
    cap.games t values.tally team last = cap.gamesFrom values team (last + 1 - cap.window) := by
  have hwindow : {slot ∈ t.slotSet | last - cap.window < slot ∧ slot ≤ last} =
      (Finset.range cap.window).image fun i : Nat => last + 1 - cap.window + (i : Int) := by
    ext slot
    rw [ends, Finset.mem_filter, Tournament.mem_slotSet] at hlast
    simp only [Finset.mem_filter, Tournament.mem_slotSet, Finset.mem_image, Finset.mem_range]
    constructor
    · intro h
      exact ⟨(slot - (last + 1 - cap.window)).toNat, by omega, by omega⟩
    · rintro ⟨i, hi, rfl⟩
      omega
  rw [games, gamesFrom, Finset.sum_comm, hwindow,
    Finset.sum_image fun i _ j _ h => Int.ofNat_inj.mp (add_left_cancel h)]

/-- The block of a rule on windows has a row for each listed team and each window. -/
theorem asks (scene : Scene t options env) (hsymbols : env.symbols = [])
    (hwindow : 2 ≤ cap.window) (hteams : ∀ team ∈ cap.teams, team ∈ t.teamSet)
    (hopponents : ∀ team ∈ cap.opponents, team ∈ t.teamSet)
    (hviolation : rule.rule.strength.isSoft = true →
      env.Ranges rule.violationName Tuple.one (cap.ends t)) :
    ∀ block ∈ (cap.fragment rule.rule.strength rule).subtos, block.rows.length = 1 ∧
      block.Asks env (cap.teams.toFinset ×ˢ cap.starts t) fun q values =>
        cap.Within rule values q.1 q.2 := by
  rw [fragment, Strength.subtos_relax, List.forall_mem_singleton, ← image_ends hwindow]
  have hteam := Index.runs_one (SetTerm.lists_ids env cap.teams)
    (show env.symbols.lookup "t" = none by simp [hsymbols])
  refine ⟨rfl, Subto.Asks.image (fun p q h => ?_) ⟨_, hteam.covers_cons fun team _ =>
    (Index.runs_one (lists_ends (scene.bind "t" team) hwindow) (by simp [hsymbols])).covers, ?_⟩⟩
  · simp only [Prod.mk.injEq] at h
    exact Prod.ext h.1 (by omega)
  · intro q hq values
    obtain ⟨hteam, hlast⟩ := Finset.mem_product.mp hq
    show _ ↔ cap.Within rule values q.1 (q.2 + 1 - cap.window)
    rw [List.forall_mem_singleton, (cap.row_means scene (values.shows_tally t) hsymbols hopponents
      hviolation (hteams _ (List.mem_toFinset.mp hteam)) hlast).holds_iff,
      games_eq_gamesFrom values q.1 hlast,
      Within, show q.2 + 1 - cap.window + cap.window - 1 = q.2 by omega]

end WindowCap

/-- An emitted rule on windows bounds the games in every window of the season, and each of them
once. -/
theorem Tournament.boundsWindows {read? : Markup.Reader} {text : String} {t : Tournament}
    {options : Options} {program : Program} (hread : Tournament.readBy read? text = .ok t)
    (hprogram : t.formulate options = .ok program) :
    ∃ env, program.env? = some env ∧ ∀ rule ∈ t.numbered, ∀ cap, rule.rule.demand = .ca3 cap →
      rule.isEmitted options = true → cap.BoundsWindows t rule program env := by
  have hwell := Tournament.wellFormed_of_readBy hread
  obtain ⟨rfl, hcheck⟩ := Tournament.of_formulate hprogram
  have hnames := t.names_apart options
  obtain ⟨env, henv, stage⟩ := Tournament.stage hcheck
  refine ⟨env, henv, fun rule hmem cap hdemand hemitted => ?_⟩
  have hskip := (Numbered.isEmitted_iff.mp hemitted).1
  have hkind : rule.rule.kind = .ca3 := congrArg Demand.kind hdemand
  have hwindow := Numbered.two_le_window hdemand (hcheck rule hmem)
  have known := stage.known rule hmem hskip
  have hteams := hwell.teamIds rule.rule (Tournament.rule_mem hmem)
  rw [Numbered.Known, hdemand] at known
  rw [hdemand] at hteams
  have hfragment :
      (rule.fragment options).subtos = (cap.fragment rule.rule.strength rule).subtos := by
    rw [Numbered.fragment_of_not_skipped hskip, hdemand]
  obtain ⟨block, hblock, hname, hrows, hasks⟩ := Numbered.exists_block_of_forall hmem hemitted
    (by rw [hkind]; decide) (hfragment ▸ WindowCap.asks stage.toScene stage.symbols hwindow
      (fun id hid => hteams id (List.mem_append_left _ hid))
      (fun id hid => hteams id (List.mem_append_right _ hid)) known)
  constructor
  case holds_iff =>
    intro values
    rw [← hname, hnames.holdsOn_iff hblock, hasks.holds_iff]
    simp only [Finset.mem_product, List.mem_toFinset, WindowCap.mem_starts hwindow,
      and_imp, Prod.forall]
    exact forall_congr' fun team => forall_comm
  case once => exact ⟨block, hblock, hname, hrows, hasks⟩
  case none =>
    intro hshort other hother hother'
    have hnone : cap.teams.toFinset ×ˢ cap.starts t = ∅ := by
      rw [Finset.product_eq_empty]
      right
      apply Finset.eq_empty_of_forall_notMem
      intro first hfirst
      rw [WindowCap.mem_starts hwindow] at hfirst
      omega
    obtain rfl : other = block :=
      List.inj_on_of_nodup_map hnames.constraints hother hblock (hother'.trans hname.symm)
    rw [hnone] at hasks
    exact hasks.expandAll?_empty

/-- The two slots of a season make one window, which a soft rule knows by the second of them. -/
theorem boundsWindows_windowPair :
    let program := windowPairTournament.program {}
    ∃ env, program.env? = some env ∧ ∀ values, program.HoldsOn ["ca3_1"] env values ↔
      values "x" [0, 1, 0] + values "x" [0, 1, 1] ≤ 1 + values "ca3_1_viol" [1] := by
  intro program
  have hprogram : windowPairTournament.formulate {} = .ok program := rfl
  obtain ⟨env, henv, hbounds⟩ := Tournament.boundsWindows read_windowPairText hprogram
  have hwithin : ∀ values, WindowCap.Within ⟨0, 1, 2, .home, [0], [1]⟩
      ⟨⟨.soft 2, .ca3 ⟨0, 1, 2, .home, [0], [1]⟩⟩, 1, 1⟩ values 0 0 ↔
      values "x" [0, 1, 0] + values "x" [0, 1, 1] ≤ 1 + values "ca3_1_viol" [1] := by
    intro values
    have hname : Numbered.violationName ⟨⟨.soft 2, .ca3 ⟨0, 1, 2, .home, [0], [1]⟩⟩, 1, 1⟩ =
        "ca3_1_viol" := by decide
    simp [WindowCap.Within, WindowCap.gamesFrom, Finset.sum_range_succ, hname, Strength.slack,
      Tally.meeting, Side.countsHome, Side.countsAway, Assignment.tally, Tuple.three, Tuple.one]
  refine ⟨env, henv, fun values => ((hbounds _ (.head _) _ rfl rfl).holds_iff values).trans ?_⟩
  rw [← hwithin]
  constructor
  · exact fun h => h 0 (.head _) 0 (by decide) (by decide)
  · intro h team hteam first hzero hlast
    obtain rfl := List.mem_singleton.mp hteam
    have hslots : first + 2 ≤ 2 := hlast
    obtain rfl : first = 0 := by omega
    exact h

end RoundRobin
