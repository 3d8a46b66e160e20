import RoundRobin.Proofs.Meaning.Timetables

/-! Programs without soft rules. Some values of the other variables go with the games of a timetable
if and only if it is a season that keeps all hard rules. -/

namespace RoundRobin

open Zimpl

variable {t : Tournament} {options : Options} {values : Assignment} {plays : Timetable}

/-- A hard rule is kept if and only if it is short of no more than it gives way by. -/
theorem Numbered.kept_iff_short_le {rule : Numbered} (hhard : rule.rule.strength = .hard) :
    rule.rule.demand.Kept t (plays.tally t) ↔ ∀ place ∈ rule.rule.demand.places t options,
      rule.rule.demand.short t (plays.tally t) options place ≤ rule.slack values place := by
  simp only [rule.slack_of_hard hhard values]
  exact Demand.kept_iff (Demand.counted_tally plays t rule.rule.demand)

theorem Numbered.isSkipped_of_hard {rule : Numbered} (hhard : rule.rule.strength = .hard)
    (options : Options) : rule.isSkipped options = false := by
  rw [Numbered.isSkipped, Rule.isSkipped, hhard]
  rfl

/-- Only hard rules are formulated without soft ones. -/
theorem Numbered.hard_of_not_skipped {rule : Numbered} (hsoft : options.soft = false)
    (h : rule.isSkipped options = false) : rule.rule.strength = .hard := by
  cases hstrength : rule.rule.strength with
  | hard => rfl
  | soft penalty =>
    simp [Numbered.isSkipped, Rule.isSkipped, hstrength, hsoft, Strength.isSoft] at h

/-- The games of a timetable can be completed to values for which a program without soft rules holds
if and only if the timetable is a season and keeps every hard rule. -/
theorem Timetable.exists_holds_iff {read? : Markup.Reader} {text : String} {program : Program}
    (hread : Tournament.readBy read? text = .ok t) (hsoft : options.soft = false)
    (hfull : options.feasibility = false) (hprogram : t.formulate options = .ok program)
    (plays : Timetable) :
    (∃ values : Assignment, values.Plays t plays ∧ program.Holds values) ↔
      plays.IsSeason t options ∧
        ∀ rule ∈ t.rules, rule.strength = .hard → rule.demand.Kept t (plays.tally t) := by
  have hwell := Tournament.wellFormed_of_readBy hread
  obtain ⟨rfl, hcheck⟩ := Tournament.of_formulate hprogram
  have hcutoff : options.soft = true → options.cutoff = none := fun h =>
    absurd h (by rw [hsoft]; decide)
  constructor
  · rintro ⟨values, hplays, hholds⟩
    obtain ⟨hseason, hshort⟩ := hplays.short_le hwell hcheck hfull hcutoff hholds
    refine ⟨hseason, fun rule hrule hhard => ?_⟩
    obtain ⟨numbered, hmem, rfl⟩ := Tournament.exists_numbered hrule
    exact (Numbered.kept_iff_short_le hhard).mpr
      (hshort numbered hmem (Numbered.isSkipped_of_hard hhard options))
  · rintro ⟨hseason, hkept⟩
    have shows := (plays.tally t).shows_assignment t
    refine ⟨(plays.tally t).assignment, fun p hp slot hslot => shows.game p hp slot hslot,
      hseason.holds hwell hcheck hfull hcutoff shows ?_ fun rule hmem hskip => ?_⟩
    · exact fun h => absurd h (by rw [hsoft]; decide)
    · have hhard := Numbered.hard_of_not_skipped hsoft hskip
      exact (Numbered.kept_iff_short_le hhard).mp
        (hkept rule.rule (Tournament.rule_mem hmem) hhard)

/-- Two teams of which the first is not to play at home in the first slot. -/
def awayFirstText : String :=
  "<Instance><gameMode>P</gameMode><team id=\"0\"/><team id=\"1\"/><slot id=\"0\"/><slot id=\"1\"/>"
    ++ "<Constraints><CA1 max=\"0\" min=\"0\" mode=\"H\" penalty=\"1\" slots=\"0\" teams=\"0\" "
    ++ "type=\"HARD\"/></Constraints></Instance>"

def awayFirstTournament : Tournament where
  name := none
  teams := [0, 1]
  slots := [0, 1]
  phased := true
  rules := [⟨.hard, .ca1 ⟨0, 0, .home, [0], [0]⟩⟩]

theorem read_awayFirstText : Tournament.read awayFirstText = .ok awayFirstTournament :=
  Tournament.read_eq_ok (toList_append_ofList (toList_append_ofList String.toList_ofList))
    (by decide +kernel)

/-- The games of two teams that play at home in turn. -/
def inTurn (first second : Int) : Timetable := fun home away slot =>
  (home = first ∧ away = second ∧ slot = 0) ∨ (home = second ∧ away = first ∧ slot = 1)

theorem isSeason_inTurn : (inTurn 1 0).IsSeason awayFirstTournament { soft := false } :=
  ⟨by decide, by decide, by decide, by decide⟩

/-- The first team may play at home in the second slot, but not in the first. -/
theorem exists_holds_awayFirst :
    (∃ values : Assignment, values.Plays awayFirstTournament (inTurn 1 0) ∧
      (awayFirstTournament.program { soft := false }).Holds values) ∧
    ¬ ∃ values : Assignment, values.Plays awayFirstTournament (inTurn 0 1) ∧
      (awayFirstTournament.program { soft := false }).Holds values := by
  have hprogram : awayFirstTournament.formulate { soft := false } =
      .ok (awayFirstTournament.program { soft := false }) := rfl
  constructor
  · refine (Timetable.exists_holds_iff read_awayFirstText rfl rfl hprogram _).mpr
      ⟨isSeason_inTurn, fun rule hrule _ => ?_⟩
    obtain rfl := List.mem_singleton.mp hrule
    show ∀ team ∈ [(0 : Int)], _
    decide +kernel
  · rw [Timetable.exists_holds_iff read_awayFirstText rfl rfl hprogram _]
    rintro ⟨-, hkept⟩
    have h := hkept _ (.head _) rfl 0 (.head _)
    revert h
    decide +kernel

end RoundRobin
