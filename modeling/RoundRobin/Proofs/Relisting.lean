import RoundRobin.Proofs.Numbering.Run
import RoundRobin.Proofs.Steps

/-! Tournaments that list the same ids in other ways. A formulated program depends on the ids of a
list only as a set: in another order or with other repetitions they give the same program, but for
the comments that show the lists. -/

namespace RoundRobin

open Zimpl

/-- Two lists of the same ids, in any order and any number of times. -/
def SameIds (a b : List Int) : Prop := ∀ id, id ∈ a ↔ id ∈ b

/-- The same demand with other lists of the same ids. -/
inductive Demand.Relisted : Demand → Demand → Prop
  | ca1 {d : SideCap} {teams slots : List Int} :
    SameIds d.teams teams → SameIds d.slots slots → Relisted (.ca1 d) (.ca1 { d with teams, slots })
  | ca2 {d : OpponentCap} {teams opponents slots : List Int} :
    SameIds d.teams teams → SameIds d.opponents opponents → SameIds d.slots slots →
    Relisted (.ca2 d) (.ca2 { d with teams, opponents, slots })
  | ca3 {d : WindowCap} {teams opponents : List Int} :
    SameIds d.teams teams → SameIds d.opponents opponents →
    Relisted (.ca3 d) (.ca3 { d with teams, opponents })
  | ca4 {d : GroupCap} {teams opponents slots : List Int} :
    SameIds d.teams teams → SameIds d.opponents opponents → SameIds d.slots slots →
    Relisted (.ca4 d) (.ca4 { d with teams, opponents, slots })
  | ga1 {d : MeetingBound} {slots : List Int} :
    SameIds d.slots slots → Relisted (.ga1 d) (.ga1 { d with slots })
  | se1 {d : Separation} {teams : List Int} :
    SameIds d.teams teams → Relisted (.se1 d) (.se1 { d with teams })
  | br1 {d : TeamBreaks} {teams slots : List Int} :
    SameIds d.teams teams → SameIds d.slots slots → Relisted (.br1 d) (.br1 { d with teams, slots })
  | br2 {d : GroupBreaks} {teams slots : List Int} :
    SameIds d.teams teams → SameIds d.slots slots → Relisted (.br2 d) (.br2 { d with teams, slots })
  | fa2 {d : HomeBalance} {teams slots : List Int} :
    SameIds d.teams teams → SameIds d.slots slots → Relisted (.fa2 d) (.fa2 { d with teams, slots })

structure Rule.Relisted (a b : Rule) : Prop where
  strength : a.strength = b.strength
  demand : a.demand.Relisted b.demand

/-- The same tournament with its teams and its slots in another order and its rules relisted. -/
structure Tournament.Relisted (a b : Tournament) : Prop where
  name : a.name = b.name
  teams : a.teams.Perm b.teams
  slots : a.slots.Perm b.slots
  phased : a.phased = b.phased
  rules : List.Forall₂ Rule.Relisted a.rules b.rules

/-- A program without its comments. -/
def Zimpl.Program.uncommented (program : Program) : Program :=
  program.filter fun
    | .comment _ => false
    | _ => true

theorem Zimpl.Program.uncommented_append (p q : Program) :
    Program.uncommented (p ++ q) = p.uncommented ++ q.uncommented :=
  List.filter_append ..

section Ids

variable {a b : List Int}

theorem SameIds.ascending_eq (h : SameIds a b) : ascending a = ascending b := ascending_eq_iff.mpr h

theorem SameIds.ids_eq (h : SameIds a b) : SetTerm.ids a = SetTerm.ids b := by
  rw [SetTerm.ids, SetTerm.ids, h.ascending_eq]

theorem SameIds.filter (h : SameIds a b) (p : Int → Bool) : SameIds (a.filter p) (b.filter p) :=
  fun id => by rw [List.mem_filter, List.mem_filter, h id]

theorem SameIds.eq_nil_iff (h : SameIds a b) : a = [] ↔ b = [] := by
  rw [List.eq_nil_iff_forall_not_mem, List.eq_nil_iff_forall_not_mem]
  exact forall_congr' fun id => not_congr (h id)

end Ids

/-- The same rule in the same place, relisted. -/
structure Numbered.Relisted (a b : Numbered) : Prop where
  rule : a.rule.Relisted b.rule
  number : a.number = b.number
  softPlace : a.softPlace = b.softPlace

section Rules

variable {a b : Rule} {as bs : List Rule}

theorem Rule.Relisted.kind_eq (h : a.Relisted b) : a.kind = b.kind := by
  obtain ⟨strength, demand⟩ := a
  obtain ⟨strength', demand'⟩ := b
  cases h.demand <;> rfl

theorem Rule.Relisted.units_eq (h : a.Relisted b) : a.demand.units = b.demand.units := by
  obtain ⟨strength, demand⟩ := a
  obtain ⟨strength', demand'⟩ := b
  cases h.demand <;> rfl

theorem unitsOf_relisted (kind : Kind) (h : List.Forall₂ Rule.Relisted as bs) :
    unitsOf kind as = unitsOf kind bs := by
  induction h with
  | nil => rfl
  | cons hab _ ih => rw [unitsOf, unitsOf, hab.kind_eq, hab.units_eq, ih]

/-- Rules are counted by their kind and their strength. -/
theorem length_filter_relisted {p : Rule → Bool} (hp : ∀ a b, a.Relisted b → p a = p b)
    (h : List.Forall₂ Rule.Relisted as bs) : (as.filter p).length = (bs.filter p).length := by
  have hcount : ∀ rules : List Rule, (rules.filter p).length = (rules.map p).countP id :=
    fun rules => by rw [List.countP_map, Function.id_comp, List.countP_eq_length_filter]
  rw [hcount, hcount, map_eq_of_forall₂ hp h]

theorem any_relisted {p : Rule → Bool} (hp : ∀ a b, a.Relisted b → p a = p b)
    (h : List.Forall₂ Rule.Relisted as bs) : as.any p = bs.any p := by
  have hany : ∀ rules : List Rule, rules.any p = (rules.map p).any id := fun rules => by
    rw [List.any_map, Function.id_comp]
  rw [hany, hany, map_eq_of_forall₂ hp h]

theorem softOf_relisted (kind : Kind) (h : List.Forall₂ Rule.Relisted as bs) :
    softOf kind as = softOf kind bs :=
  length_filter_relisted (fun a b hab => by rw [hab.kind_eq, hab.strength]) h

/-- Relisted rules have the same numbers. -/
theorem Numbered.relisted_allBehind {earlier earlier' : List Rule}
    (hearlier : List.Forall₂ Rule.Relisted earlier earlier')
    (h : List.Forall₂ Rule.Relisted as bs) :
    List.Forall₂ Numbered.Relisted (allBehind earlier as) (allBehind earlier' bs) := by
  induction h generalizing earlier earlier' with
  | nil => exact .nil
  | @cons a b as bs hab _ ih =>
    refine .cons ⟨hab, ?_, ?_⟩ (ih (List.rel_append hearlier (.cons hab .nil)))
    · show unitsOf a.kind earlier + 1 = unitsOf b.kind earlier' + 1
      rw [hab.kind_eq, unitsOf_relisted _ hearlier]
    · show softOf a.kind earlier + 1 = softOf b.kind earlier' + 1
      rw [hab.kind_eq, softOf_relisted _ hearlier]

end Rules

namespace Numbered

variable {a b : Numbered} {options : Options}

theorem Relisted.check_eq (h : a.Relisted b) : a.check options = b.check options := by
  obtain ⟨⟨strength, demand⟩, number, place⟩ := a
  obtain ⟨⟨strength', demand'⟩, number', place'⟩ := b
  obtain ⟨⟨rfl, hdemand⟩, rfl, rfl⟩ := h
  cases hdemand with
  | @br2 d teams slots hteams hslots =>
    have hblock : d.block = GroupBreaks.block { d with teams, slots } := hslots.ascending_eq
    simp only [check, GroupBreaks.check, hblock]
  | _ => rfl

theorem Relisted.fragment_eq (h : a.Relisted b) : a.fragment options = b.fragment options := by
  obtain ⟨⟨strength, demand⟩, number, place⟩ := a
  obtain ⟨⟨strength', demand'⟩, number', place'⟩ := b
  obtain ⟨⟨rfl, hdemand⟩, rfl, rfl⟩ := h
  unfold fragment
  refine if_congr Iff.rfl rfl ?_
  cases hdemand with
  | ca1 hteams hslots =>
    simp only [SideCap.fragment, hteams.ids_eq, hslots.ids_eq]
    rfl
  | ca2 hteams hopponents hslots =>
    simp only [OpponentCap.fragment, hteams.ids_eq, hopponents.ids_eq, hslots.ids_eq]
    rfl
  | ca3 hteams hopponents =>
    simp only [WindowCap.fragment, hteams.ids_eq, hopponents.ids_eq]
    rfl
  | ca4 hteams hopponents hslots =>
    simp only [GroupCap.fragment, hteams.ids_eq, hopponents.ids_eq, hslots.ids_eq]
    rfl
  | ga1 hslots =>
    simp only [MeetingBound.fragment, MeetingBound.most, MeetingBound.least, MeetingBound.counted,
      hslots.ids_eq]
    rfl
  | se1 hteams =>
    simp only [Separation.fragment, pairsOf, hteams.ids_eq]
    rfl
  | @br1 d teams slots hteams hslots =>
    have hcounted : SameIds d.countedSlots (TeamBreaks.countedSlots { d with teams, slots }) :=
      hslots.filter _
    simp only [TeamBreaks.fragment, hteams.ids_eq, hcounted.ids_eq, hcounted.eq_nil_iff]
    rfl
  | @br2 d teams slots hteams hslots =>
    have hcounted : d.countedSlots = GroupBreaks.countedSlots { d with teams, slots } :=
      congrArg List.tail hslots.ascending_eq
    simp only [GroupBreaks.fragment, hteams.ids_eq, hcounted]
    rfl
  | fa2 hteams hslots =>
    simp only [HomeBalance.fragment, pairsOf, hteams.ids_eq, hslots.ids_eq]
    rfl

/-- A relisted rule adds the same statements under another description. -/
theorem Relisted.uncommented_eq (h : a.Relisted b) :
    Program.uncommented (a.statements options) = Program.uncommented (b.statements options) := by
  rw [statements, statements, h.fragment_eq]
  rfl

end Numbered

namespace Tournament

variable {a b : Tournament} {options : Options}

theorem Relisted.numbered (h : a.Relisted b) :
    List.Forall₂ Numbered.Relisted a.numbered b.numbered :=
  Numbered.relisted_allBehind .nil h.rules

theorem Relisted.teamCount_eq (h : a.Relisted b) : a.teamCount = b.teamCount := h.teams.length_eq

theorem Relisted.slotCount_eq (h : a.Relisted b) : a.slotCount = b.slotCount := h.slots.length_eq

theorem Relisted.softCount_eq (h : a.Relisted b) (kind : Kind) :
    a.softCount kind = b.softCount kind := by
  rw [softCount, softCount, rulesOf, rulesOf, List.filter_filter, List.filter_filter]
  exact length_filter_relisted (fun a b hab => by rw [hab.kind_eq, hab.strength]) h.rules

theorem Relisted.hasBreaks_eq (h : a.Relisted b) : a.hasBreaks = b.hasBreaks :=
  any_relisted (fun a b hab => by rw [hab.kind_eq]) h.rules

theorem Relisted.hasBalance_eq (h : a.Relisted b) : a.hasBalance = b.hasBalance :=
  any_relisted (fun a b hab => by rw [hab.kind_eq]) h.rules

/-- The frames differ in the heading, which shows the lists in comments. -/
theorem Relisted.uncommented_frame (h : a.Relisted b) :
    (Frame.statements a options).uncommented = (Frame.statements b options).uncommented := by
  have hheading : ∀ t, Program.uncommented (Frame.heading t) = [.blank] := fun t => by
    unfold Frame.heading
    cases t.name <;> rfl
  have hresources : Frame.resources a = Frame.resources b := by
    rw [Frame.resources, Frame.resources, h.teamCount_eq, h.slotCount_eq]
  have hshared : Frame.sharedArray a options = Frame.sharedArray b options := by
    funext kind
    rw [Frame.sharedArray, Frame.sharedArray, h.softCount_eq]
  have harrays : Frame.sharedArrays a options = Frame.sharedArrays b options := by
    rw [Frame.sharedArrays, Frame.sharedArrays, hshared]
  have hgames : Frame.gameVariables a = Frame.gameVariables b := by
    rw [Frame.gameVariables, Frame.gameVariables, h.hasBreaks_eq]
  have hodd : Frame.oddFamilies a options = Frame.oddFamilies b options := by
    rw [Frame.oddFamilies, Frame.oddFamilies, h.teamCount_eq]
  have hbreaks : Frame.breakCount a = Frame.breakCount b := by
    rw [Frame.breakCount, Frame.breakCount, h.hasBreaks_eq]
  have hhalves : Frame.halves a options = Frame.halves b options := by
    rw [Frame.halves, Frame.halves, h.phased]
  have hhome : Frame.homeGames a = Frame.homeGames b := by
    rw [Frame.homeGames, Frame.homeGames, h.phased, h.hasBalance_eq]
  simp only [Frame.statements, Program.uncommented_append, hheading, hresources, harrays, hgames,
    hodd, hbreaks, hhalves, hhome]

theorem Relisted.charges_eq (h : a.Relisted b) : a.charges options = b.charges options := by
  have hcharges : a.numbered.map (fun rule => (rule.fragment options).charges) =
      b.numbered.map fun rule => (rule.fragment options).charges :=
    map_eq_of_forall₂ (fun a b hab => congrArg Fragment.charges hab.fragment_eq) h.numbered
  rw [charges, charges, List.flatMap_def, hcharges, List.flatMap_def]

theorem Relisted.uncommented_program (h : a.Relisted b) :
    (a.program options).uncommented = (b.program options).uncommented := by
  have hrules : ∀ rules : List Numbered,
      Program.uncommented (rules.flatMap (Numbered.statements options)) =
        (rules.map fun rule =>
          Program.uncommented (rule.statements options)).flatten := fun rules =>
    by rw [Program.uncommented, List.filter_flatMap, List.flatMap_def]; rfl
  have hstatements : a.numbered.map (fun rule => Program.uncommented (rule.statements options)) =
      b.numbered.map fun rule => Program.uncommented (rule.statements options) :=
    map_eq_of_forall₂ (fun _ _ hab => hab.uncommented_eq) h.numbered
  simp only [program, Program.uncommented_append, h.uncommented_frame, hrules, h.charges_eq,
    hstatements]

/-- The first rule that cannot be formulated is the same. -/
theorem Relisted.forM_check_eq (h : a.Relisted b) :
    a.numbered.forM (Numbered.check options) = b.numbered.forM (Numbered.check options) :=
  forM_eq_of_forall₂ (fun _ _ hab => hab.check_eq) h.numbered

/-- Tournaments that list the same ids are formulated alike: both fail for the same reason, or their
programs are the same but for comments. -/
theorem formulate_relisted (h : a.Relisted b) (options : Options) :
    (∃ failure, a.formulate options = .error failure ∧ b.formulate options = .error failure) ∨
    ∃ p q, a.formulate options = .ok p ∧ b.formulate options = .ok q ∧
      p.uncommented = q.uncommented := by
  rw [formulate_eq, formulate_eq, h.forM_check_eq]
  cases b.numbered.forM (Numbered.check options) with
  | error failure => exact .inl ⟨failure, rfl, rfl⟩
  | ok _ => exact .inr ⟨_, _, rfl, rfl, h.uncommented_program⟩

end Tournament

/-- Breaks of two teams, in a soft rule of each kind. -/
def breakTournament (teams slots : List Int) : Tournament where
  name := some "Breaks"
  teams := [0, 1]
  slots := [0, 1]
  phased := false
  rules := [⟨.soft 3, .br1 { limit := 0, side := .both, teams, slots }⟩,
    ⟨.soft 5, .br2 { limit := 1, teams, slots }⟩]

theorem formulate_breakTournament :
    let listed := breakTournament [0, 1] [0, 1]
    let relisted := { breakTournament [1, 0, 1] [1, 1, 0] with teams := [1, 0] }
    listed.Relisted relisted ∧
    ((∃ failure, listed.formulate {} = .error failure ∧ relisted.formulate {} = .error failure) ∨
    ∃ p q, listed.formulate {} = .ok p ∧ relisted.formulate {} = .ok q ∧
      p.uncommented = q.uncommented) := by
  have hteams : SameIds [0, 1] [1, 0, 1] := ascending_eq_iff.mp (by decide)
  have hslots : SameIds [0, 1] [1, 1, 0] := ascending_eq_iff.mp (by decide)
  have h : (breakTournament [0, 1] [0, 1]).Relisted
      { breakTournament [1, 0, 1] [1, 1, 0] with teams := [1, 0] } :=
    ⟨rfl, .swap .., .refl _, rfl,
      .cons ⟨rfl, .br1 hteams hslots⟩ (.cons ⟨rfl, .br2 hteams hslots⟩ .nil)⟩
  exact ⟨h, Tournament.formulate_relisted h {}⟩

end RoundRobin
