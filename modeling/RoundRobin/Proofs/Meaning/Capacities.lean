import RoundRobin.Proofs.Meaning.Rows
import RoundRobin.Proofs.Range.Program

/-! Capacities. The row of a capacity rule counts the games of listed teams in listed slots. The
lists are read as sets, so that each game counts once however often they repeat its teams, and where
two lists overlap no team is paired with itself. -/

namespace RoundRobin

open Zimpl

/-- How often a team plays another in a slot, at home, away or at either venue. -/
def Zimpl.Assignment.games (values : Assignment) (side : Side) (team other slot : Int) : Rat :=
  match side with
  | .home => values "x" (Tuple.three ((team, other), slot))
  | .away => values "x" (Tuple.three ((other, team), slot))
  | .both => values "x" (Tuple.three ((team, other), slot))
      + values "x" (Tuple.three ((other, team), slot))

theorem Zimpl.Assignment.meeting_tally (values : Assignment) (side : Side) :
    values.tally.meeting side = values.games side := by
  ext team other slot
  cases side <;>
    simp [Tally.meeting, tally, games, Side.countsHome, Side.countsAway]

/-- Every game to which a constraint refers is one of two different teams. -/
def Zimpl.Subto.PairsApart (env : Env) (block : Subto) : Prop :=
  Everywhere (fun occurrence => occurrence.1 = "x" → ∃ home away slot : Int,
    occurrence.2 = Tuple.three ((home, away), slot) ∧ home ≠ away) (block.occurrences? env)

/-- The row of a capacity rule bounds the games of each listed team, or those of all listed pairs of
teams, by the cap and the violation of the rule. -/
structure Numbered.CapsGames (rule : Numbered) (t : Tournament) (program : Program) (env : Env) :
    Prop where
  ca1 : ∀ cap, rule.rule.demand = .ca1 cap → cap.side ≠ .both ∧
    ∀ values, program.HoldsOn [rule.name] env values ↔ ∀ team ∈ cap.teams,
      ∑ slot ∈ cap.slots.toFinset, ∑ other ∈ t.teamSet.erase team,
        values.games cap.side team other slot ≤
          cap.max + rule.rule.strength.slack values "ca1_viol" (Tuple.one rule.softPlace)
  ca2 : ∀ cap, rule.rule.demand = .ca2 cap →
    ∀ values, program.HoldsOn [rule.name] env values ↔ ∀ team ∈ cap.teams,
      ∑ slot ∈ cap.slots.toFinset, ∑ other ∈ cap.opponents.toFinset.erase team,
        values.games cap.side team other slot ≤
          cap.max + rule.rule.strength.slack values "ca2_viol" (Tuple.one rule.softPlace)
  global : ∀ cap, rule.rule.demand = .ca4 cap → cap.scope = .global →
    ∀ values, program.HoldsOn [rule.name] env values ↔
      ∑ slot ∈ cap.slots.toFinset,
        ∑ pair ∈ cap.teams.toFinset ×ˢ cap.opponents.toFinset with pair.1 ≠ pair.2,
          values.games cap.side pair.1 pair.2 slot ≤
            cap.max + rule.rule.strength.slack values rule.violationName []
  every : ∀ cap, rule.rule.demand = .ca4 cap → cap.scope = .every →
    ∀ values, program.HoldsOn [rule.name] env values ↔ ∀ slot ∈ cap.slots,
      ∑ pair ∈ cap.teams.toFinset ×ˢ cap.opponents.toFinset with pair.1 ≠ pair.2,
        values.games cap.side pair.1 pair.2 slot ≤
          cap.max + rule.rule.strength.slack values rule.violationName (Tuple.one slot)
  /-- A capacity rule has one constraint, and no team plays itself there. -/
  apart : rule.rule.kind ∈ [.ca1, .ca2, .ca4] → ∃ block ∈ program.subtos,
    block.name = rule.name ∧ block.PairsApart env ∧
      ∀ other ∈ program.subtos, other.name = rule.name → other = block

variable {t : Tournament} {options : Options} {env : Env} {rule : Numbered}

/-- A constraint that keeps to what is declared pairs no team with itself. -/
theorem Stage.pairsApart (stage : Stage t options env)
    (henv : (t.program options).env? = some env) {block : Subto} (h : block.Within env) :
    block.PairsApart env :=
  Everywhere.mono h fun _ hhas hgame => by
    obtain ⟨home, away, slot, hplace, hne, -⟩ := (stage.inRange henv hhas).game hgame
    exact ⟨home, away, slot, hplace, hne⟩

/-- An emitted capacity rule bounds the games that it lists. -/
theorem Tournament.capsGames {read? : Markup.Reader} {text : String} {t : Tournament}
    {options : Options} {program : Program} (hread : Tournament.readBy read? text = .ok t)
    (hprogram : t.formulate options = .ok program) :
    ∃ env, program.env? = some env ∧ ∀ rule ∈ t.numbered, rule.isEmitted options = true →
      rule.CapsGames t program env := by
  have hwell := Tournament.wellFormed_of_readBy hread
  obtain ⟨rfl, hcheck⟩ := Tournament.of_formulate hprogram
  have hnames := t.names_apart options
  obtain ⟨env, henv, stage⟩ := Tournament.stage hcheck
  refine ⟨env, henv, fun rule hmem hemitted => ?_⟩
  obtain ⟨hskip, hvoid⟩ := Numbered.isEmitted_iff.mp hemitted
  have hiff : ∀ demand, rule.rule.demand = demand → demand.kind ∈ [Kind.ca1, .ca2, .ca4] →
      ∀ values, (t.program options).HoldsOn [rule.name] env values ↔
        demand.KeptWithin t values.tally options (rule.slack values) := by
    rintro _ rfl (hkind : rule.rule.kind ∈ [Kind.ca1, .ca2, .ca4]) values
    exact Numbered.holdsOn_iff stage (values.shows_tally t) hwell hcheck hmem hemitted
      (fun hga1 => absurd (hga1 ▸ hkind) (by decide)) fun hse1 => absurd (hse1 ▸ hkind) (by decide)
  constructor
  case ca1 =>
    intro cap hdemand
    refine ⟨hwell.oneSided _ (Tournament.rule_mem hmem) cap hdemand, fun values => ?_⟩
    rw [hiff _ hdemand (.head _) values, ← values.meeting_tally,
      ← Numbered.slack_eq_of_violation hvoid (by rw [Numbered.violation, hdemand])]
    refine forall₂_congr fun team _ => ?_
    rw [SideCap.games, Finset.sum_comm]
  case ca2 =>
    intro cap hdemand values
    rw [hiff _ hdemand (.tail _ (.head _)) values, ← values.meeting_tally,
      ← Numbered.slack_eq_of_violation hvoid (by rw [Numbered.violation, hdemand])]
    rfl
  case global =>
    intro cap hdemand hscope values
    rw [hiff _ hdemand (.tail _ (.tail _ (.head _))) values, ← values.meeting_tally,
      ← Numbered.slack_eq_of_violation hvoid (by rw [Numbered.violation, hdemand])]
    simp only [Demand.KeptWithin, hscope]
    rfl
  case every =>
    intro cap hdemand hscope values
    have hslack : ∀ slot, rule.slack values (.slot slot) = _ := fun slot =>
      Numbered.slack_eq hvoid (.slot slot)
    rw [hiff _ hdemand (.tail _ (.tail _ (.head _))) values, ← values.meeting_tally]
    simp only [Demand.KeptWithin, hscope, hslack]
    rfl
  case apart =>
    intro hkind
    have hwithin := rule.subtos_within stage.toScene (Assignment.shows_tally (fun _ _ => 0) t)
      stage.symbols hwell hmem (hcheck rule hmem) hskip (stage.known rule hmem hskip)
    obtain ⟨block, hblock, hname, hwithin⟩ := Numbered.exists_block_of_forall hmem hemitted
      (fun heq => absurd (heq ▸ hkind) (by decide)) hwithin
    exact ⟨block, hblock, hname, stage.pairsApart henv hwithin, fun other hother heq =>
      List.inj_on_of_nodup_map hnames.constraints hother hblock (heq.trans hname.symm)⟩

/-- Two teams that may play once between them in the first slot, and whose games against each other
are to be spread over the slots. The lists overlap and repeat themselves. -/
def capPairText : String :=
  "<Instance><team id=\"0\"/><team id=\"1\"/><slot id=\"0\"/><slot id=\"1\"/><Constraints>"
    ++ "<CA2 max=\"1\" min=\"0\" mode1=\"HA\" mode2=\"GLOBAL\" penalty=\"1\" slots=\"0;0\" "
    ++ "teams1=\"0\" teams2=\"1;0;1\" type=\"HARD\"/>"
    ++ "<CA4 max=\"1\" min=\"0\" mode1=\"A\" mode2=\"EVERY\" penalty=\"2\" slots=\"0;1\" "
    ++ "teams1=\"0;1\" teams2=\"0\" type=\"SOFT\"/>"
    ++ "</Constraints></Instance>"

def capPairTournament : Tournament where
  name := none
  teams := [0, 1]
  slots := [0, 1]
  phased := false
  rules := [⟨.hard, .ca2 ⟨0, 1, .both, [0], [1, 0, 1], [0, 0]⟩⟩,
    ⟨.soft 2, .ca4 ⟨0, 1, .away, .every, [0, 1], [0], [0, 1]⟩⟩]

theorem read_capPairText : Tournament.read capPairText = .ok capPairTournament :=
  Tournament.read_eq_ok (toList_append_ofList (toList_append_ofList (toList_append_ofList
    (toList_append_ofList (toList_append_ofList String.toList_ofList))))) (by decide +kernel)

/-- A team that is listed as its own opponent plays the other one, and a game that is listed twice
counts once. -/
theorem capsGames_capPair :
    let program := capPairTournament.program {}
    ∃ env, program.env? = some env ∧
      (∀ values, program.HoldsOn ["ca2_1"] env values ↔
        values "x" [0, 1, 0] + values "x" [1, 0, 0] ≤ 1) ∧
      ∀ values, program.HoldsOn ["ca4_1"] env values ↔
        values "x" [0, 1, 0] ≤ 1 + values "ca4_1_viol" [0] ∧
          values "x" [0, 1, 1] ≤ 1 + values "ca4_1_viol" [1] := by
  intro program
  have hprogram : capPairTournament.formulate {} = .ok program := rfl
  obtain ⟨env, henv, hcaps⟩ := Tournament.capsGames read_capPairText hprogram
  have hopponent := hcaps ⟨⟨.hard, .ca2 ⟨0, 1, .both, [0], [1, 0, 1], [0, 0]⟩⟩, 1, 1⟩ (.head _) rfl
  have hgroup := hcaps ⟨⟨.soft 2, .ca4 ⟨0, 1, .away, .every, [0, 1], [0], [0, 1]⟩⟩, 1, 1⟩
    (.tail _ (.head _)) rfl
  refine ⟨env, henv, fun values => ?_, fun values => ?_⟩
  · refine (hopponent.ca2 _ rfl values).trans ?_
    simp [Assignment.games, Strength.slack, Tuple.three]
  · refine (hgroup.every _ rfl rfl values).trans ?_
    have hname : Numbered.violationName
        ⟨⟨.soft 2, .ca4 ⟨0, 1, .away, .every, [0, 1], [0], [0, 1]⟩⟩, 1, 1⟩ = "ca4_1_viol" := by
          decide
    have hpairs : {pair ∈ [(0 : Int), 1].toFinset ×ˢ [(0 : Int)].toFinset | pair.1 ≠ pair.2} =
        {(1, 0)} := by decide
    simp only [hpairs, hname, Strength.slack]
    simp [Assignment.games, Tuple.one, Tuple.three]

end RoundRobin
