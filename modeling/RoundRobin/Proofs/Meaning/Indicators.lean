import RoundRobin.Proofs.Meaning.Rows
import RoundRobin.Proofs.Range.Program

/-! Breaks and their indicators. The rows of a frame bound the indicators of breaks from below only,
and those of rules on breaks bound their sums from above. Some indicators meet all of them together
if and only if the breaks that there are do, which are then the least that do. -/

namespace RoundRobin

open Zimpl

/-- A team plays at one venue in a slot and the slot before, and a side counts games at that
venue. -/
def Timetable.HasBreak (plays : Timetable) (t : Tournament) (side : Side)
    (team slot : Int) : Prop :=
  side.countsHome = true ∧ plays.IsHome t team (slot - 1) ∧ plays.IsHome t team slot ∨
    side.countsAway = true ∧ plays.IsAway t team (slot - 1) ∧ plays.IsAway t team slot

instance (plays : Timetable) (t : Tournament) (side : Side) (team slot : Int) :
    Decidable (plays.HasBreak t side team slot) := by
  unfold Timetable.HasBreak
  infer_instance

/-- What a rule on breaks asks of a timetable, where it gives way by some slack. -/
def Demand.LimitsBreaks (plays : Timetable) (t : Tournament) (slack : Rat) : Demand → Prop
  | .br1 rule => ∀ team ∈ rule.teams,
      (Finset.card {slot ∈ rule.slots.toFinset.erase 0 | plays.HasBreak t rule.side team slot} :
        Rat) ≤ rule.limit + slack
  | .br2 rule =>
      (Finset.card {q ∈ rule.teams.toFinset ×ˢ rule.inner | plays.HasBreak t .both q.1 q.2} : Rat)
        ≤ rule.limit + slack
  | _ => True

/-- The rules on breaks that add a constraint. -/
def Tournament.breakRules (t : Tournament) (options : Options) : List Numbered :=
  t.numbered.filter fun rule =>
    (rule.rule.kind = .br1 ∨ rule.rule.kind = .br2) ∧ rule.isEmitted options = true

theorem Tournament.mem_breakRules {t : Tournament} {options : Options} {rule : Numbered} :
    rule ∈ t.breakRules options ↔ rule ∈ t.numbered ∧
      (rule.rule.kind = .br1 ∨ rule.rule.kind = .br2) ∧ rule.isEmitted options = true := by
  rw [breakRules, List.mem_filter, decide_eq_true_iff]

/-- The names of the rows on breaks, those of the frame and those of all rules. -/
def Tournament.breakRows (t : Tournament) (options : Options) : List String :=
  "br_count" :: (t.breakRules options).map (·.name)

/-- Some values differ from others in some variables only, whose bounds they keep, and meet the rows
of some names. -/
structure Zimpl.Program.Completes (program : Program) (free rows : List String) (env : Env)
    (values after : Assignment) : Prop where
  agree : ∀ name ∉ free, after name = values name
  admits : program.AdmitsOn free env after
  holds : program.HoldsOn rows env after

/-- The breaks of a timetable in place of those that some values show. -/
def Zimpl.Assignment.withBreaks (values : Assignment) (t : Tournament) (plays : Timetable) :
    Assignment :=
  fun name => if name ∈ ["bh", "ba"] then (plays.tally t).assignment name else values name

/-- Breaks can be indicated if and only if the timetable keeps all rules on them, and the least
indicators are its breaks. -/
structure Tournament.BreaksExact (t : Tournament) (options : Options) (program : Program)
    (env : Env) : Prop where
  exists_iff : ∀ values plays, values.Plays t plays → plays.AtMostDaily t →
    ((∃ after, program.Completes ["bh", "ba"] (t.breakRows options) env values after) ↔
      ∀ rule ∈ t.breakRules options, rule.rule.demand.LimitsBreaks plays t
        (rule.rule.strength.slack values rule.violationName []))
  least : ∀ values plays, values.Plays t plays → plays.AtMostDaily t → ∀ after,
    program.Completes ["bh", "ba"] (t.breakRows options) env values after →
      program.Completes ["bh", "ba"] (t.breakRows options) env values (values.withBreaks t plays) ∧
      ∀ team ∈ t.teamSet, ∀ slot ∈ t.slotSet.erase 0,
        (plays.tally t).homeBreak team slot ≤ after "bh" (Tuple.two (team, slot)) ∧
        (plays.tally t).awayBreak team slot ≤ after "ba" (Tuple.two (team, slot))

section Counts

variable {plays : Timetable} {t : Tournament}

namespace Timetable.AtMostDaily

variable (h : plays.AtMostDaily t)
include h

theorem not_home_and_away {team slot : Int} (hteam : team ∈ t.teamSet)
    (hhome : plays.IsHome t team slot) : ¬ plays.IsAway t team slot := by
  intro haway
  have hdaily := atMostDaily_iff.mp h slot hhome.1 team hteam
  linarith [hhome.one_le, haway.one_le]

/-- A team has no more than one break in a slot. -/
theorem breaks_eq {side : Side} {team slot : Int} (hteam : team ∈ t.teamSet) :
    (plays.tally t).breaks side team slot = if plays.HasBreak t side team slot then 1 else 0 := by
  by_cases hhome : plays.IsHome t team (slot - 1) ∧ plays.IsHome t team slot
  · have haway : ¬ (plays.IsAway t team (slot - 1) ∧ plays.IsAway t team slot) := fun haway =>
      h.not_home_and_away hteam hhome.2 haway.2
    simp [Tally.breaks, Timetable.tally, HasBreak, hhome, haway]
  · simp [Tally.breaks, Timetable.tally, HasBreak, hhome, ← ite_and]

theorem teamBreaks_eq (breaks : TeamBreaks) {team : Int} (hteam : team ∈ t.teamSet) :
    breaks.breaks (plays.tally t) team = Finset.card
      {slot ∈ breaks.slots.toFinset.erase 0 | plays.HasBreak t breaks.side team slot} := by
  rw [TeamBreaks.breaks, Finset.sum_congr rfl fun slot _ => h.breaks_eq hteam]
  exact Finset.sum_boole _ _

theorem groupBreaks_eq {breaks : GroupBreaks} (hteams : ∀ team ∈ breaks.teams, team ∈ t.teamSet) :
    breaks.breaks (plays.tally t) = Finset.card
      {q ∈ breaks.teams.toFinset ×ˢ breaks.inner | plays.HasBreak t .both q.1 q.2} := by
  rw [GroupBreaks.breaks, ← Finset.sum_product', Finset.sum_congr rfl fun q hq =>
    h.breaks_eq (hteams q.1 (List.mem_toFinset.mp (Finset.mem_product.mp hq).1))]
  exact Finset.sum_boole _ _

/-- A rule on breaks is kept if and only if the timetable has no more of them than it allows. -/
theorem keptWithin_iff {demand : Demand} {options : Options} {slack : Place → Rat}
    (hkind : demand.kind = .br1 ∨ demand.kind = .br2)
    (hteams : ∀ team ∈ demand.teamIds, team ∈ t.teamSet) :
    demand.KeptWithin t (plays.tally t) options slack ↔
      demand.LimitsBreaks plays t (slack .whole) := by
  cases demand with
  | br1 breaks =>
    refine forall₂_congr fun team hteam => ?_
    rw [h.teamBreaks_eq breaks (hteams team hteam)]
  | br2 breaks =>
    show _ ≤ _ ↔ _ ≤ _
    rw [h.groupBreaks_eq hteams]
  | _ => simp [Demand.kind] at hkind

end Timetable.AtMostDaily

end Counts

section Rows

variable {t : Tournament} {options : Options} {env : Env} {values after : Assignment}
  {plays : Timetable}

/-- Values that differ in breaks only have the same games. -/
theorem Zimpl.Assignment.Plays.of_agree (hplays : values.Plays t plays)
    (hagree : ∀ name ∉ ["bh", "ba"], after name = values name) : after.Plays t plays := by
  intro p hp slot hslot
  rw [hagree "x" (by decide)]
  exact hplays p hp slot hslot

/-- What gives way of a rule on breaks is not a break. -/
theorem Numbered.slack_of_agree {rule : Numbered} (hmem : rule ∈ t.breakRules options)
    (hagree : ∀ name ∉ ["bh", "ba"], after name = values name) :
    rule.slack after .whole = rule.rule.strength.slack values rule.violationName [] := by
  obtain ⟨-, hkind, hemitted⟩ := Tournament.mem_breakRules.mp hmem
  have hviolation : rule.violation .whole = (rule.violationName, []) := by
    obtain ⟨⟨strength, demand⟩, number, softPlace⟩ := rule
    cases demand with
    | br1 _ | br2 _ => rfl
    | _ => simp [Rule.kind, Demand.kind] at hkind
  have hname : rule.violationName ∉ ["bh", "ba"] := by
    intro hname
    have hcounters : ∀ name ∈ ["bh", "ba"], isViolation name = false := by decide
    have hnot := hcounters _ hname
    rw [isViolation_violationName] at hnot
    contradiction
  rw [slack_eq_of_violation (isEmitted_iff.mp hemitted).2 hviolation]
  cases rule.rule.strength with
  | hard => rfl
  | soft penalty => exact congrFun (hagree _ hname) []

variable (stage : Stage t options env) (hbreaks : t.hasBreaks = true)
include stage hbreaks

/-- The indicators of breaks are declared to be zero or one. -/
theorem Stage.admitsOn_breaks : (t.program options).AdmitsOn ["bh", "ba"] env after ↔
    ∀ q ∈ t.teamSet ×ˢ t.slotSet.erase 0,
      (after "bh" (Tuple.two q) = 0 ∨ after "bh" (Tuple.two q) = 1) ∧
      (after "ba" (Tuple.two q) = 0 ∨ after "ba" (Tuple.two q) = 1) := by
  have hnames := t.names_apart options
  have hdecl : ∀ name ∈ ["bh", "ba"],
      VarDecl.binary name (times "T" "S0") ∈ Program.varDecls (t.program options) := by
    intro name hname
    apply Frame.mem_varDecls_program
    refine Frame.mem_varDecls.mpr (.inr (.inl ?_))
    rw [Frame.gameVariables, if_pos hbreaks]
    rcases List.mem_pair.mp hname with rfl | rfl
    · exact .tail _ (.head _)
    · exact .tail _ (.tail _ (.head _))
  have shows := after.shows_tally t
  have hhome := hnames.admitsOn_iff (hdecl "bh" (.head _)) env after
  have haway := hnames.admitsOn_iff (hdecl "ba" (.tail _ (.head _))) env after
  rw [stage.toScene.breaks_hold (shows.homeBreak hbreaks)] at hhome
  rw [stage.toScene.breaks_hold (shows.awayBreak hbreaks)] at haway
  rw [Program.admitsOn_iff_forall, List.forall_mem_cons, List.forall_mem_singleton, forall₂_and]
  exact and_congr hhome haway

variable (hcheck : ∀ rule ∈ t.numbered, rule.check options = .ok ()) (hwell : t.WellFormed)
  (hplays : after.Plays t plays)
include hcheck hwell hplays

theorem Stage.holdsOn_breakRows : (t.program options).HoldsOn (t.breakRows options) env after ↔
    (∀ team ∈ t.teamSet, ∀ slot ∈ t.slotSet.erase 0,
      (∑ other ∈ t.teamSet.erase team, (plays.tally t).game team other (slot - 1)
        + ∑ other ∈ t.teamSet.erase team, (plays.tally t).game team other slot - 1
          ≤ after "bh" (Tuple.two (team, slot))) ∧
      (∑ other ∈ t.teamSet.erase team, (plays.tally t).game other team (slot - 1)
        + ∑ other ∈ t.teamSet.erase team, (plays.tally t).game other team slot - 1
          ≤ after "ba" (Tuple.two (team, slot)))) ∧
    ∀ rule ∈ t.breakRules options, rule.rule.demand.KeptWithin t
      { after.tally with game := (plays.tally t).game } options (rule.slack after) := by
  have hnames := t.names_apart options
  rw [Program.holdsOn_iff_forall, Tournament.breakRows, List.forall_mem_cons, List.forall_mem_map,
    Frame.holdsOn_breakCount hnames hbreaks,
    (stage.toScene.breakCount_mean hplays.shows stage.symbols).holds_iff]
  refine and_congr (forall_prop_of_true hbreaks) (forall₂_congr fun rule hrule => ?_)
  obtain ⟨hmem, hkind, hemitted⟩ := Tournament.mem_breakRules.mp hrule
  refine Numbered.holdsOn_iff stage hplays.shows hwell hcheck hmem hemitted ?_ ?_
  · rcases hkind with hkind | hkind <;> rw [hkind] <;> decide
  · exact fun hse1 => absurd hkind (by rw [hse1]; decide)

end Rows

section Completion

variable {t : Tournament} {options : Options} {env : Env} {values after : Assignment}
  {plays : Timetable} (stage : Stage t options env) (hbreaks : t.hasBreaks = true)
  (hcheck : ∀ rule ∈ t.numbered, rule.check options = .ok ()) (hwell : t.WellFormed)
  (hplays : values.Plays t plays) (hdaily : plays.AtMostDaily t)
include stage hbreaks hcheck hwell hplays

/-- Indicators are no less than the breaks that there are. -/
theorem Stage.breaks_le_of_completes (h : (t.program options).Completes ["bh", "ba"]
    (t.breakRows options) env values after) :
    ∀ team ∈ t.teamSet, ∀ slot ∈ t.slotSet.erase 0,
      (plays.tally t).homeBreak team slot ≤ after "bh" (Tuple.two (team, slot)) ∧
      (plays.tally t).awayBreak team slot ≤ after "ba" (Tuple.two (team, slot)) := by
  intro team hteam slot hslot
  have hafter := hplays.of_agree h.agree
  have hbinary := (stage.admitsOn_breaks hbreaks).mp h.admits (team, slot)
    (Finset.mem_product.mpr ⟨hteam, hslot⟩)
  obtain ⟨hhome, haway⟩ :=
    ((stage.holdsOn_breakRows hbreaks hcheck hwell hafter).mp h.holds).1 team hteam slot hslot
  exact ⟨Timetable.homeBreak_le (nonneg_of_binary hbinary.1) hhome,
    Timetable.awayBreak_le (nonneg_of_binary hbinary.2) haway⟩

include hdaily

/-- Where breaks can be indicated, the timetable keeps all rules on them. -/
theorem Stage.limitsBreaks_of_completes (h : (t.program options).Completes ["bh", "ba"]
    (t.breakRows options) env values after) :
    ∀ rule ∈ t.breakRules options, rule.rule.demand.LimitsBreaks plays t
      (rule.rule.strength.slack values rule.violationName []) := by
  intro rule hrule
  obtain ⟨hmem, hkind, -⟩ := Tournament.mem_breakRules.mp hrule
  have hteams := hwell.teamIds rule.rule (Tournament.rule_mem hmem)
  have hslots := hwell.slotIds rule.rule (Tournament.rule_mem hmem)
  have hle := stage.breaks_le_of_completes hbreaks hcheck hwell hplays h
  have hrows := stage.holdsOn_breakRows hbreaks hcheck hwell (hplays.of_agree h.agree)
  rw [← Numbered.slack_of_agree hrule h.agree, ← hdaily.keptWithin_iff hkind hteams]
  have hkept := (hrows.mp h.holds).2 rule hrule
  refine Demand.keptWithin_mono ?_ hkind hteams hslots hkept
  intro side team hteam slot hslot
  obtain ⟨hhome, haway⟩ := hle team hteam slot hslot
  exact Tally.breaks_mono hhome haway

/-- The breaks of a timetable that keeps all rules on them indicate themselves. -/
theorem Stage.completes_withBreaks (h : ∀ rule ∈ t.breakRules options,
    rule.rule.demand.LimitsBreaks plays t
      (rule.rule.strength.slack values rule.violationName [])) :
    (t.program options).Completes ["bh", "ba"] (t.breakRows options) env values
      (values.withBreaks t plays) := by
  have hagree : ∀ name ∉ ["bh", "ba"], values.withBreaks t plays name = values name :=
    fun name hname => if_neg hname
  have hrows := stage.holdsOn_breakRows hbreaks hcheck hwell (hplays.of_agree hagree)
  constructor
  case agree => exact hagree
  case admits =>
    apply (stage.admitsOn_breaks hbreaks).mpr
    intro q _
    exact plays.breaks_eq_zero_or_one t q.1 q.2
  case holds =>
    refine hrows.mpr ⟨?_, ?_⟩
    · intro team hteam slot hslot
      exact ⟨hdaily.countsMet.homeBreaks hbreaks team hteam slot hslot,
        hdaily.countsMet.awayBreaks hbreaks team hteam slot hslot⟩
    · intro rule hrule
      obtain ⟨hmem, hkind, -⟩ := Tournament.mem_breakRules.mp hrule
      have hteams := hwell.teamIds rule.rule (Tournament.rule_mem hmem)
      have hslots := hwell.slotIds rule.rule (Tournament.rule_mem hmem)
      have hkept : rule.rule.demand.KeptWithin t (plays.tally t) options
          (rule.slack (values.withBreaks t plays)) := by
        rw [hdaily.keptWithin_iff hkind hteams, Numbered.slack_of_agree hrule hagree]
        exact h rule hrule
      -- the two tallies show the same breaks
      refine Demand.keptWithin_mono ?_ hkind hteams hslots hkept
      intro side team _ slot _
      exact le_rfl

end Completion

/-- The breaks of a timetable are the least that meet the rows on breaks, if any do, and some do if
and only if the timetable has no more breaks than its rules allow. -/
theorem Tournament.breaksExact {read? : Markup.Reader} {text : String} {t : Tournament}
    {options : Options} {program : Program} (hread : Tournament.readBy read? text = .ok t)
    (hbreaks : t.hasBreaks = true) (hprogram : t.formulate options = .ok program) :
    ∃ env, program.env? = some env ∧ t.BreaksExact options program env := by
  have hwell := Tournament.wellFormed_of_readBy hread
  obtain ⟨rfl, hcheck⟩ := Tournament.of_formulate hprogram
  obtain ⟨env, henv, stage⟩ := Tournament.stage hcheck
  refine ⟨env, henv, ?_⟩
  constructor
  case exists_iff =>
    intro values plays hplays hdaily
    constructor
    · rintro ⟨after, h⟩
      exact stage.limitsBreaks_of_completes hbreaks hcheck hwell hplays hdaily h
    · intro h
      exact ⟨_, stage.completes_withBreaks hbreaks hcheck hwell hplays hdaily h⟩
  case least =>
    intro values plays hplays hdaily after h
    have hlimits := stage.limitsBreaks_of_completes hbreaks hcheck hwell hplays hdaily h
    constructor
    · exact stage.completes_withBreaks hbreaks hcheck hwell hplays hdaily hlimits
    · exact stage.breaks_le_of_completes hbreaks hcheck hwell hplays h

/-- A team without a break allowed may play at home in one of two slots, but not in both. -/
theorem breaksExact_windowPair :
    let program := windowPairTournament.program {}
    ∃ env, program.env? = some env ∧
      (∀ values : Assignment, values.Plays windowPairTournament (inTurn 0 1) →
        ∃ after, program.Completes ["bh", "ba"] ["br_count", "br1_1"] env values after) ∧
      ∀ values : Assignment,
        values.Plays windowPairTournament (fun home away _ => home = 0 ∧ away = 1) →
          ¬ ∃ after, program.Completes ["bh", "ba"] ["br_count", "br1_1"] env values after := by
  intro program
  have hprogram : windowPairTournament.formulate {} = .ok program := rfl
  obtain ⟨env, henv, hexact⟩ := Tournament.breaksExact read_windowPairText rfl hprogram
  have hrows : windowPairTournament.breakRows {} = ["br_count", "br1_1"] := by decide +kernel
  have hrules : windowPairTournament.breakRules {} =
      [⟨⟨.hard, .br1 ⟨0, .both, [0], [0, 1]⟩⟩, 1, 1⟩] := by decide +kernel
  have hturn : (Demand.br1 ⟨0, .both, [0], [0, 1]⟩).LimitsBreaks (inTurn 0 1)
      windowPairTournament 0 := by
    show ∀ team ∈ [(0 : Int)], _
    decide +kernel
  rw [← hrows]
  refine ⟨env, henv, fun values hplays => ?_, fun values hplays => ?_⟩
  · rw [hexact.exists_iff values _ hplays (by decide), hrules, List.forall_mem_singleton]
    exact hturn
  · rw [hexact.exists_iff values _ hplays (by decide), hrules, List.forall_mem_singleton]
    intro hlimits
    have hbreak : (1 : Rat) ≤ 0 + 0 := hlimits 0 (.head _)
    norm_num at hbreak

end RoundRobin
