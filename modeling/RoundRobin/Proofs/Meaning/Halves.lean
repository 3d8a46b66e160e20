import RoundRobin.Proofs.Meaning.Hard

/-! The halves of a season. Where they mirror each other, the return games of the first half are the
games of the second, so that both venues of a pairing add up to one game over all slots: the row on
the pairings of the first half follows and may be left out. -/

namespace RoundRobin

open Zimpl

/-- The slots that are not in the first half. -/
def Tournament.secondHalf (t : Tournament) : Finset Int := t.slotSet \ t.firstHalf

namespace Tournament

variable {t : Tournament}

theorem sum_halves (t : Tournament) (f : Int → Rat) :
    ∑ slot ∈ t.firstHalf, f slot + ∑ slot ∈ t.secondHalf, f slot = ∑ slot ∈ t.slotSet, f slot := by
  rw [add_comm]
  exact Finset.sum_sdiff fun _ hslot => t.mem_slotSet_of_mem_firstHalf hslot

/-- An even number of slots has halves of one length. -/
theorem secondHalf_eq_image (heven : t.slotCount % 2 = 0) :
    t.secondHalf = t.firstHalf.image fun slot : Int => slot + (t.slotCount / 2 : Nat) := by
  ext slot
  simp only [secondHalf, Finset.mem_sdiff, Finset.mem_image, mem_slotSet, mem_firstHalf]
  constructor
  · exact fun h => ⟨slot - (t.slotCount / 2 : Nat), by omega, by omega⟩
  · rintro ⟨first, h, rfl⟩
    omega

theorem sum_secondHalf (heven : t.slotCount % 2 = 0) (f : Int → Rat) :
    ∑ slot ∈ t.secondHalf, f slot =
      ∑ slot ∈ t.firstHalf, f (slot + (t.slotCount / 2 : Nat)) := by
  rw [secondHalf_eq_image heven, Finset.sum_image fun _ _ _ _ heq => add_right_cancel heq]

/-- A mirrored pairing is played in the first half as often as one of its games in all slots. -/
theorem sum_firstHalf_of_mirror {game : Int → Int → Int → Rat} (heven : t.slotCount % 2 = 0)
    {p : Int × Int} (hmirror : ∀ slot ∈ t.firstHalf,
      game p.1 p.2 slot = game p.2 p.1 (slot + (t.slotCount / 2 : Nat))) :
    ∑ slot ∈ t.firstHalf, (game p.1 p.2 slot + game p.2 p.1 slot) =
      ∑ slot ∈ t.slotSet, game p.2 p.1 slot :=
  calc ∑ slot ∈ t.firstHalf, (game p.1 p.2 slot + game p.2 p.1 slot)
      = ∑ slot ∈ t.firstHalf, game p.2 p.1 (slot + (t.slotCount / 2 : Nat))
          + ∑ slot ∈ t.firstHalf, game p.2 p.1 slot := by
        rw [Finset.sum_add_distrib, Finset.sum_congr rfl hmirror]
    _ = ∑ slot ∈ t.secondHalf, game p.2 p.1 slot + ∑ slot ∈ t.firstHalf, game p.2 p.1 slot := by
        rw [sum_secondHalf heven]
    _ = ∑ slot ∈ t.slotSet, game p.2 p.1 slot := by
        rw [add_comm, t.sum_halves]

end Tournament

namespace Timetable

/-- How often two teams meet in some slots, at either venue. -/
def meetings (plays : Timetable) (slots : Finset Int) (a b : Int) : Nat :=
  Finset.card {slot ∈ slots | plays a b slot} + Finset.card {slot ∈ slots | plays b a slot}

/-- Every two teams meet once in each half of the season. -/
def MeetsPerHalf (plays : Timetable) (t : Tournament) : Prop :=
  ∀ a ∈ t.teamSet, ∀ b ∈ t.teamSet, a < b →
    plays.meetings t.firstHalf a b = 1 ∧ plays.meetings t.secondHalf a b = 1

variable {plays : Timetable} {t : Tournament}

theorem sum_eitherWay (plays : Timetable) (t : Tournament) (slots : Finset Int) (a b : Int) :
    ∑ slot ∈ slots, ((plays.tally t).game a b slot + (plays.tally t).game b a slot) =
      plays.meetings slots a b := by
  rw [Finset.sum_add_distrib, plays.sum_game t (fun _ => a) (fun _ => b) (fun slot => slot),
    plays.sum_game t (fun _ => b) (fun _ => a) (fun slot => slot), meetings, Nat.cast_add]

/-- Of the two games of a pairing, the one that is not in the first half is in the second. -/
theorem meetsPerHalf_of_once
    (honce : ∀ p ∈ t.teamSet.offDiag, ∑ slot ∈ t.slotSet, (plays.tally t).game p.1 p.2 slot = 1)
    (hfirst : ∀ p ∈ t.teamSet ×ˢ t.teamSet, p.1 < p.2 → ∑ slot ∈ t.firstHalf,
      ((plays.tally t).game p.1 p.2 slot + (plays.tally t).game p.2 p.1 slot) = 1) :
    plays.MeetsPerHalf t := by
  intro a ha b hb hlt
  have hpair : (a, b) ∈ t.teamSet.offDiag := Finset.mem_offDiag.mpr ⟨ha, hb, hlt.ne⟩
  have hinFirst := hfirst (a, b) (Finset.mem_product.mpr ⟨ha, hb⟩) hlt
  have hinBoth : ∑ slot ∈ t.slotSet,
      ((plays.tally t).game a b slot + (plays.tally t).game b a slot) = 2 := by
    rw [Finset.sum_add_distrib, honce (a, b) hpair, honce (b, a) (Scene.swap_mem hpair)]
    norm_num
  rw [← t.sum_halves, hinFirst] at hinBoth
  rw [plays.sum_eitherWay] at hinFirst hinBoth
  constructor
  · exact_mod_cast hinFirst
  · have hinSecond : (plays.meetings t.secondHalf a b : Rat) = 1 := by linarith
    exact_mod_cast hinSecond

end Timetable

/-- Those rows of a program hold that have one of some names. -/
def Zimpl.Program.HoldsOn (program : Program) (names : List String) (env : Env)
    (values : Assignment) : Prop :=
  ∀ block ∈ Program.subtos program, block.name ∈ names → block.Holds env values

/-- The rows on the pairings of the first half, which a phased season has where its halves need not
mirror each other. -/
def Frame.pairings (t : Tournament) (options : Options) : List Subto :=
  Program.subtos (Frame.halves { t with phased := true } { options with symmetric := false })

/-- The rows on the first half and those that mirror it ask the same of a season, and the latter
entail the former. -/
structure Tournament.HalvesAgree (t : Tournament) (options : Options) (program : Program)
    (env : Env) : Prop where
  slots : options.feasibility = false → ∀ values, program.HoldsOn ["c1", "c3"] env values →
    t.slotCount = 2 * (t.teamCount - 1)
  phased : options.feasibility = false → t.phased = true → options.symmetric = false →
    ∀ values plays, values.Plays t plays →
      program.HoldsOn ["c1", "c3", "c4"] env values → plays.MeetsPerHalf t
  mirrored : options.feasibility = false → options.symmetric = true →
    ∀ values plays, values.Plays t plays →
      program.HoldsOn ["c1", "c3", "c5"] env values → plays.MeetsPerHalf t
  implied : options.feasibility = false → options.symmetric = true →
    ∀ values, program.HoldsOn ["c1", "c3", "c5"] env values →
      ∀ block ∈ Frame.pairings t options, block.Holds env values
  /-- As many games as possible: a game takes place at most once, and so does a pairing in the first
  half. -/
  impliedAtMost : options.feasibility = true → options.symmetric = true → t.slotCount % 2 = 0 →
    ∀ values, program.HoldsOn ["c1", "c5"] env values →
      ∀ block ∈ Frame.pairings t options, block.Holds env values

section Rows

variable {t : Tournament} {options : Options} {env : Env} {values : Assignment} {tally : Tally}
  {names : List String}

theorem Frame.pairings_eq (hphased : t.phased = true) (hsymmetric : options.symmetric = false) :
    Frame.pairings t options = Program.subtos (Frame.halves t options) := by
  rw [Frame.pairings, Frame.halves, Frame.halves, hphased, hsymmetric]
  rfl

theorem Frame.name_of_mem_pairings {block : Subto} (h : block ∈ Frame.pairings t options) :
    block.name = "c4" := by
  rw [List.mem_singleton.mp h]

theorem Frame.name_of_mem_mirror {block : Subto}
    (h : block ∈ Program.subtos (Frame.mirror options)) : block.name = "c5" := by
  unfold Frame.mirror at h
  split at h
  · rw [List.mem_singleton.mp h]
  · exact nomatch h

theorem Zimpl.Program.HoldsOn.gameBlock (h : (t.program options).HoldsOn names env values)
    {block : Subto} (hblock : block ∈ Frame.gameBlocks t options) (hname : block.name ∈ names) :
    block.Holds env values :=
  h block (Frame.mem_subtos_program (Frame.mem_subtos.mpr (.inl hblock))) hname

namespace Scene

variable (scene : Scene t options env) (shows : values.Shows t tally) (hsymbols : env.symbols = [])
include scene shows hsymbols

theorem pairings_hold : (∀ block ∈ Frame.pairings t options, block.Holds env values) ↔
    ∀ p ∈ t.teamSet ×ˢ t.teamSet, p.1 < p.2 → (Frame.exactly options).Holds
      (∑ slot ∈ t.firstHalf, (tally.game p.1 p.2 slot + tally.game p.2 p.1 slot)) 1 := by
  show (∀ block ∈ [_], _) ↔ _
  rw [List.forall_mem_singleton]
  exact (scene.pairing_means shows hsymbols _).holds_iff

variable (h : (t.program options).HoldsOn names env values)
include h

theorem once_of_holdsOn (hname : "c1" ∈ names) : ∀ p ∈ t.teamSet.offDiag,
    (Frame.exactly options).Holds (∑ slot ∈ t.slotSet, tally.game p.1 p.2 slot) 1 := by
  refine (scene.once_means shows hsymbols _).holds_iff.mp (h.gameBlock ?_ hname)
  simp only [Frame.gameBlocks, List.append_assoc]
  exact List.mem_append_left _ (.head _)

theorem daily_of_holdsOn (hname : "c3" ∈ names) : ∀ slot ∈ t.slotSet, ∀ team ∈ t.teamSet,
    (Frame.exactly options).Holds (∑ other ∈ t.teamSet.erase team, tally.game team other slot
      + ∑ other ∈ t.teamSet.erase team, tally.game other team slot) 1 := by
  refine (scene.daily_means shows hsymbols _).holds_iff.mp (h.gameBlock ?_ hname)
  simp only [Frame.gameBlocks, List.append_assoc]
  exact List.mem_append_left _ (.tail _ (.tail _ (.head _)))

theorem mirror_of_holdsOn (htwo : 2 ≤ t.teamCount) (hsymmetric : options.symmetric = true)
    (hname : "c5" ∈ names) : t.slotCount % 2 = 0 ∧
      ∀ p ∈ t.teamSet.offDiag, ∀ slot ∈ t.firstHalf,
        tally.game p.1 p.2 slot = tally.game p.2 p.1 (slot + (t.slotCount / 2 : Nat)) := by
  refine (scene.mirror_holds shows hsymbols htwo).mp (fun block hblock => ?_) hsymmetric
  refine h.gameBlock (List.mem_append_right _ hblock) ?_
  rwa [Frame.name_of_mem_mirror hblock]

/-- The games of a mirrored season, once each at most or exactly, meet the rows on the first half in
the same sense. -/
theorem pairings_of_mirror (htwo : 2 ≤ t.teamCount) (hsymmetric : options.symmetric = true)
    (hgames : "c1" ∈ names) (hreturns : "c5" ∈ names) :
    ∀ block ∈ Frame.pairings t options, block.Holds env values := by
  obtain ⟨heven, hmirror⟩ := scene.mirror_of_holdsOn shows hsymbols h htwo hsymmetric hreturns
  refine (scene.pairings_hold shows hsymbols).mpr fun p hp hlt => ?_
  have hpair : p ∈ t.teamSet.offDiag :=
    Finset.mem_offDiag.mpr ⟨(Finset.mem_product.mp hp).1, (Finset.mem_product.mp hp).2, hlt.ne⟩
  rw [Tournament.sum_firstHalf_of_mirror heven (hmirror p hpair)]
  exact scene.once_of_holdsOn shows hsymbols h hgames p.swap (swap_mem hpair)

/-- Where every team plays in every slot, the slots are those of a double round robin. -/
theorem slotCount_of_holdsOn (htwo : 2 ≤ t.teamCount) (hfull : options.feasibility = false)
    (hgames : "c1" ∈ names) (hdays : "c3" ∈ names) : t.slotCount = 2 * (t.teamCount - 1) := by
  have honce := scene.once_of_holdsOn shows hsymbols h hgames
  have hdaily := scene.daily_of_holdsOn shows hsymbols h hdays
  rw [Frame.exactly_of_full hfull] at honce hdaily
  exact slotCount_eq_of_once_of_full (by omega) honce (sum_slot_of_daily hdaily)

end Scene

/-- Each game once, and each pairing once in the first half, however that comes about. -/
theorem Scene.meetsPerHalf {plays : Timetable} (scene : Scene t options env)
    (hsymbols : env.symbols = []) (hplays : values.Plays t plays)
    (hfull : options.feasibility = false)
    (h : (t.program options).HoldsOn names env values) (hgames : "c1" ∈ names)
    (hpairings : ∀ block ∈ Frame.pairings t options, block.Holds env values) :
    plays.MeetsPerHalf t := by
  have honce := scene.once_of_holdsOn hplays.shows hsymbols h hgames
  have hfirst := (scene.pairings_hold hplays.shows hsymbols).mp hpairings
  rw [Frame.exactly_of_full hfull] at honce hfirst
  exact Timetable.meetsPerHalf_of_once honce hfirst

end Rows

/-- The rows on the first half of a season and the rows that mirror it make every two teams meet
once in each half; the former may be left out where the latter are there. -/
theorem Tournament.halvesAgree {read? : Markup.Reader} {text : String} {t : Tournament}
    {options : Options} {program : Program} (hread : Tournament.readBy read? text = .ok t)
    (hprogram : t.formulate options = .ok program) :
    ∃ env, program.env? = some env ∧ t.HalvesAgree options program env := by
  have htwo := (Tournament.wellFormed_of_readBy hread).two_le
  obtain ⟨rfl, hcheck⟩ := Tournament.of_formulate hprogram
  obtain ⟨env, henv, stage⟩ := Tournament.stage hcheck
  have scene := stage.toScene
  refine ⟨env, henv, ?_⟩
  constructor
  case slots =>
    exact fun hfull values h => scene.slotCount_of_holdsOn (values.shows_tally t) stage.symbols h
      htwo hfull (by simp) (by simp)
  case phased =>
    intro hfull hphased hsymmetric values plays hplays h
    refine scene.meetsPerHalf stage.symbols hplays hfull h (by simp) fun block hblock => ?_
    have hname := Frame.name_of_mem_pairings hblock
    -- here the program has these rows itself
    rw [Frame.pairings_eq hphased hsymmetric] at hblock
    refine h.gameBlock ?_ (by simp [hname])
    exact List.mem_append_left _ (List.mem_append_right _ hblock)
  case mirrored =>
    intro hfull hsymmetric values plays hplays h
    exact scene.meetsPerHalf stage.symbols hplays hfull h (by simp)
      (scene.pairings_of_mirror hplays.shows stage.symbols h htwo hsymmetric (by simp) (by simp))
  case implied =>
    exact fun _ hsymmetric values h => scene.pairings_of_mirror (values.shows_tally t)
      stage.symbols h htwo hsymmetric (by simp) (by simp)
  case impliedAtMost =>
    exact fun _ hsymmetric _ values h => scene.pairings_of_mirror (values.shows_tally t)
      stage.symbols h htwo hsymmetric (by simp) (by simp)

theorem Zimpl.Program.Holds.holdsOn {program : Program} {env : Env} {values : Assignment}
    (h : program.Holds values) (henv : program.env? = some env) (names : List String) :
    program.HoldsOn names env values := by
  obtain ⟨env', henv', -, hblocks⟩ := h
  obtain rfl : env' = env := Option.some.inj (henv'.symm.trans henv)
  exact fun block hblock _ => hblocks block hblock

/-- Two teams that play at home in turn meet in both halves of a mirrored phased season. -/
theorem meetsPerHalf_inTurn :
    let options : Options := { soft := false, symmetric := true }
    let program := awayFirstTournament.program options
    ∃ env, program.env? = some env ∧ awayFirstTournament.HalvesAgree options program env ∧
      ∃ values : Assignment, values.Plays awayFirstTournament (inTurn 1 0) ∧
        program.HoldsOn ["c1", "c3", "c5"] env values ∧
        (inTurn 1 0).MeetsPerHalf awayFirstTournament := by
  intro options program
  have hprogram : awayFirstTournament.formulate options = .ok program := rfl
  obtain ⟨env, henv, hagree⟩ := Tournament.halvesAgree read_awayFirstText hprogram
  have hseason : (inTurn 1 0).IsSeason awayFirstTournament options :=
    ⟨by decide, by decide, by decide, by decide⟩
  have shows := ((inTurn 1 0).tally awayFirstTournament).shows_assignment awayFirstTournament
  have hholds : program.Holds ((inTurn 1 0).tally awayFirstTournament).assignment := by
    refine hseason.holds (Tournament.wellFormed_of_readBy read_awayFirstText)
      (Tournament.of_formulate hprogram).2 rfl (fun h => nomatch h) shows (fun h => nomatch h) ?_
    refine fun rule hrule hskip => (Numbered.kept_iff_short_le
      (Numbered.hard_of_not_skipped rfl hskip)).mp ?_
    obtain rfl := List.mem_singleton.mp hrule
    show ∀ team ∈ [(0 : Int)], _
    decide +kernel
  have hrows := hholds.holdsOn henv ["c1", "c3", "c5"]
  exact ⟨env, henv, hagree, _, shows.game, hrows, hagree.mirrored rfl rfl _ _ shows.game hrows⟩

end RoundRobin
