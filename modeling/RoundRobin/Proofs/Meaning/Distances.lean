import RoundRobin.Proofs.Meaning.Rows
import RoundRobin.Proofs.Meaning.Soft

/-! Distances between the two games of a pair. The row of a separation rule compares sums over all
slots, in which each game weighs as much as the number of its slot. Where every game takes place
once, that is the distance between the two slots, whichever of the games comes first. -/

namespace RoundRobin

open Zimpl

namespace Timetable

/-- A game takes place in a slot of the season. -/
def TakesPlace (plays : Timetable) (t : Tournament) (home away slot : Int) : Prop :=
  slot ∈ t.slotSet ∧ plays home away slot = true

instance (plays : Timetable) (t : Tournament) (home away slot : Int) :
    Decidable (plays.TakesPlace t home away slot) := by
  unfold TakesPlace
  infer_instance

variable {plays : Timetable} {t : Tournament}

namespace EachOnce

variable (h : plays.EachOnce t) {home away : Int}
include h

theorem exists_slots_eq (hteams : (home, away) ∈ t.teamSet.offDiag) :
    ∃ slot, {played ∈ t.slotSet | plays home away played} = {slot} := by
  obtain ⟨hhome, haway, hne⟩ := Finset.mem_offDiag.mp hteams
  exact Finset.card_eq_one.mp (h home hhome away haway hne)

theorem exists_takesPlace (hteams : (home, away) ∈ t.teamSet.offDiag) :
    ∃ slot, plays.TakesPlace t home away slot := by
  obtain ⟨slot, hslots⟩ := h.exists_slots_eq hteams
  have hmem : slot ∈ {played ∈ t.slotSet | plays home away played} :=
    hslots ▸ Finset.mem_singleton_self slot
  exact ⟨slot, Finset.mem_filter.mp hmem⟩

/-- The slots of a game, each counted once, add up to the slot in which it takes place. -/
theorem slotOf_eq (hteams : (home, away) ∈ t.teamSet.offDiag) {slot : Int}
    (hplace : plays.TakesPlace t home away slot) :
    (plays.tally t).slotOf t home away = slot := by
  obtain ⟨only, hslots⟩ := h.exists_slots_eq hteams
  obtain rfl : slot = only :=
    Finset.mem_singleton.mp (hslots ▸ Finset.mem_filter.mpr hplace)
  have hgame : ∀ played ∈ t.slotSet, (played : Rat) * (plays.tally t).game home away played =
      if plays home away played then (played : Rat) else 0 := fun _ _ => mul_boole _ _
  rw [Tally.slotOf, Finset.sum_congr rfl hgame, ← Finset.sum_filter, hslots, Finset.sum_singleton]

theorem distance_eq {pair : Int × Int} (hpair : pair ∈ t.teamSet.offDiag) {first second : Int}
    (hfirst : plays.TakesPlace t pair.1 pair.2 first)
    (hsecond : plays.TakesPlace t pair.2 pair.1 second) :
    Separation.distance t (plays.tally t) pair = |(first : Rat) - second| := by
  rw [Separation.distance, h.slotOf_eq hpair hfirst, h.slotOf_eq (Scene.swap_mem hpair) hsecond]

end EachOnce

end Timetable

/-- The slots strictly between two slots, whichever of them comes first. -/
def Tournament.slotsBetween (t : Tournament) (a b : Int) : Finset Int :=
  {slot ∈ t.slotSet | a < slot ∧ slot < b ∨ b < slot ∧ slot < a}

/-- Slots further apart than a number have so many others between them. -/
theorem Tournament.add_one_le_abs_iff {t : Tournament} {a b : Int} (ha : a ∈ t.slotSet)
    (hb : b ∈ t.slotSet) {count : Nat} :
    (count + 1 : Rat) ≤ |(a : Rat) - b| ↔ a ≠ b ∧ count ≤ (t.slotsBetween a b).card := by
  have hcast : (count + 1 : Rat) ≤ |(a : Rat) - b| ↔ (count + 1 : Int) ≤ |a - b| := by
    exact_mod_cast Iff.rfl
  have hbetween : t.slotsBetween a b = Finset.Ioo (min a b) (max a b) := by
    ext slot
    rw [mem_slotSet] at ha hb
    rw [slotsBetween, Finset.mem_filter, mem_slotSet, Finset.mem_Ioo]
    omega
  rw [hcast, hbetween, Int.card_Ioo]
  rcases le_total a b with hle | hle
  · rw [abs_of_nonpos (by omega), min_eq_left hle, max_eq_right hle]
    omega
  · rw [abs_of_nonneg (by omega), min_eq_right hle, max_eq_left hle]
    omega

/-- What holds of the slots of the two games of each pair of listed teams. -/
def Separation.OnGames (separation : Separation) (t : Tournament) (plays : Timetable)
    (p : Int × Int → Int → Int → Prop) : Prop :=
  ∀ pair ∈ unorderedPairs separation.teams, ∀ first second : Int,
    plays.TakesPlace t pair.1 pair.2 first → plays.TakesPlace t pair.2 pair.1 second →
      p pair first second

/-- A separation rule keeps the two games of each pair apart. -/
structure Separation.Separates (separation : Separation) (t : Tournament) (rule : Numbered)
    (program : Program) (env : Env) : Prop where
  holds_iff : ∀ values plays, values.Plays t plays → plays.EachOnce t →
    (program.HoldsOn [rule.name] env values ↔
      separation.OnGames t plays fun pair first second => separation.min + 1
        - rule.rule.strength.slack values rule.violationName (Tuple.two pair)
          ≤ |(first : Rat) - second|)
  /-- A hard rule asks for so many slots strictly between them. -/
  hard_iff : rule.rule.strength = .hard → ∀ values plays, values.Plays t plays → plays.EachOnce t →
    (program.HoldsOn [rule.name] env values ↔ separation.OnGames t plays fun _ first second =>
      first ≠ second ∧ separation.min ≤ (t.slotsBetween first second).card)

theorem Separation.holdsOn_iff {t : Tournament} {options : Options} {env : Env} {rule : Numbered}
    {separation : Separation} {values : Assignment} {plays : Timetable}
    (stage : Stage t options env)
    (hwell : t.WellFormed) (hcheck : ∀ rule ∈ t.numbered, rule.check options = .ok ())
    (hmem : rule ∈ t.numbered) (hdemand : rule.rule.demand = .se1 separation)
    (hemitted : rule.isEmitted options = true) (hplays : values.Plays t plays)
    (honce : plays.EachOnce t) :
    (t.program options).HoldsOn [rule.name] env values ↔
      separation.OnGames t plays fun pair first second => separation.min + 1
        - rule.rule.strength.slack values rule.violationName (Tuple.two pair)
          ≤ |(first : Rat) - second| := by
  have hkind : rule.rule.kind = .se1 := congrArg Demand.kind hdemand
  have hteams := hwell.teamIds rule.rule (Tournament.rule_mem hmem)
  rw [hdemand] at hteams
  rw [Numbered.holdsOn_iff stage hplays.shows hwell hcheck hmem hemitted (by rw [hkind]; decide)
    fun _ => Timetable.eachOnce_iff.mp honce, hdemand]
  refine forall₂_congr fun pair hpair => ?_
  have hpair := mem_offDiag_of_mem_unorderedPairs hteams hpair
  rw [Numbered.slack_eq (Numbered.isEmitted_iff.mp hemitted).2]
  constructor
  · exact fun h first second hfirst hsecond => h.trans_eq (honce.distance_eq hpair hfirst hsecond)
  · intro h
    obtain ⟨first, hfirst⟩ := honce.exists_takesPlace hpair
    obtain ⟨second, hsecond⟩ := honce.exists_takesPlace (Scene.swap_mem hpair)
    exact (h first second hfirst hsecond).trans_eq (honce.distance_eq hpair hfirst hsecond).symm

/-- Where every game takes place once, the row of an emitted separation rule bounds the distance
between the slots of the two games of each pair. -/
theorem Tournament.spacesGames {read? : Markup.Reader} {text : String} {t : Tournament}
    {options : Options} {program : Program} (hread : Tournament.readBy read? text = .ok t)
    (hprogram : t.formulate options = .ok program) :
    ∃ env, program.env? = some env ∧ ∀ rule ∈ t.numbered, ∀ separation,
      rule.rule.demand = .se1 separation → rule.isEmitted options = true →
        separation.Separates t rule program env := by
  have hwell := Tournament.wellFormed_of_readBy hread
  obtain ⟨rfl, hcheck⟩ := Tournament.of_formulate hprogram
  obtain ⟨env, henv, stage⟩ := Tournament.stage hcheck
  refine ⟨env, henv, fun rule hmem separation hdemand hemitted => ?_⟩
  have hiff := fun values plays (hplays : Assignment.Plays values t plays)
    (honce : plays.EachOnce t) =>
    Separation.holdsOn_iff stage hwell hcheck hmem hdemand hemitted hplays honce
  constructor
  case holds_iff => exact hiff
  case hard_iff =>
    intro hhard values plays hplays honce
    rw [hiff values plays hplays honce]
    refine forall₂_congr fun pair _ => forall₂_congr fun first second =>
      forall₂_congr fun hfirst hsecond => ?_
    simp only [hhard, Strength.slack, sub_zero]
    exact Tournament.add_one_le_abs_iff hfirst.1 hsecond.1

/-- The two games of a pair may take place in two slots in turn, but not in one. -/
theorem spacesGames_softPair :
    let program := softPairTournament.program {}
    ∃ env, program.env? = some env ∧
      (∀ values : Assignment, values.Plays softPairTournament (inTurn 0 1) →
        program.HoldsOn ["se1_1"] env values) ∧
      ∀ values : Assignment,
        values.Plays softPairTournament (fun home away slot => home ≠ away ∧ slot = 0) →
          ¬ program.HoldsOn ["se1_1"] env values := by
  intro program
  have hprogram : softPairTournament.formulate {} = .ok program := rfl
  obtain ⟨env, henv, hrules⟩ := Tournament.spacesGames read_softPairText hprogram
  have hseparates := hrules _ (.tail _ (.head _)) _ rfl rfl
  refine ⟨env, henv, fun values hplays => ?_, fun values hplays hholds => ?_⟩
  · refine (hseparates.hard_iff rfl values _ hplays (by decide)).mpr ?_
    intro pair hpair first second hfirst hsecond
    obtain rfl : pair = (0, 1) := Finset.mem_singleton.mp hpair
    refine ⟨?_, Nat.zero_le _⟩
    rintro rfl
    have hnever : ∀ slot ∈ softPairTournament.slotSet,
        ¬ (inTurn 0 1 0 1 slot = true ∧ inTurn 0 1 1 0 slot = true) := by decide
    exact hnever first hfirst.1 ⟨hfirst.2, hsecond.2⟩
  · have h := (hseparates.hard_iff rfl values _ hplays (by decide)).mp hholds
    exact (h (0, 1) (by decide) 0 0 (by decide) (by decide)).1 rfl

end RoundRobin
