import RoundRobin.Proofs.Reading

/-! What a loaded tournament guarantees, and what is refused: the ids of each resource are a
permutation of the first natural numbers, and no rule mentions an id outside of them. Nothing else
about ids is refused. -/

namespace RoundRobin

open Tournament

/-- A list or a meeting of the demand has the team. -/
def Demand.HasTeam (id : Int) : Demand → Prop
  | .ca1 d => id ∈ d.teams
  | .ca2 d => id ∈ d.teams ∨ id ∈ d.opponents
  | .ca3 d => id ∈ d.teams ∨ id ∈ d.opponents
  | .ca4 d => id ∈ d.teams ∨ id ∈ d.opponents
  | .ga1 d => ∃ game ∈ d.meetings, id = game.home ∨ id = game.away
  | .se1 d => id ∈ d.teams
  | .br1 d => id ∈ d.teams
  | .br2 d => id ∈ d.teams
  | .fa2 d => id ∈ d.teams

/-- A list of the demand has the slot. Rules on windows and separations list no slots. -/
def Demand.HasSlot (id : Int) : Demand → Prop
  | .ca1 d => id ∈ d.slots
  | .ca2 d => id ∈ d.slots
  | .ca3 _ => False
  | .ca4 d => id ∈ d.slots
  | .ga1 d => id ∈ d.slots
  | .se1 _ => False
  | .br1 d => id ∈ d.slots
  | .br2 d => id ∈ d.slots
  | .fa2 d => id ∈ d.slots

theorem Demand.mem_teamIds {demand : Demand} {id : Int} :
    id ∈ demand.teamIds ↔ demand.HasTeam id := by
  cases demand <;> simp [Demand.teamIds, Demand.HasTeam]

theorem Demand.mem_slotIds {demand : Demand} {id : Int} :
    id ∈ demand.slotIds ↔ demand.HasSlot id := by
  cases demand <;> simp [Demand.slotIds, Demand.HasSlot]

/-- What holds of every tournament that is loaded. -/
structure Tournament.Guaranteed (t : Tournament) : Prop where
  teams : t.teams.Perm (firstIds t.teamCount)
  even : t.teamCount % 2 = 0
  two_le : 2 ≤ t.teamCount
  slots : t.slots.Perm (firstIds t.slotCount)
  one_le : 1 ≤ t.slotCount
  hasTeam : ∀ rule ∈ t.rules, ∀ id, rule.demand.HasTeam id → 0 ≤ id ∧ id < t.teamCount
  hasSlot : ∀ rule ∈ t.rules, ∀ id, rule.demand.HasSlot id → 0 ≤ id ∧ id < t.slotCount
  meetings : ∀ rule ∈ t.rules, ∀ bound, rule.demand = .ga1 bound →
    ∀ game ∈ bound.meetings, game.home ≠ game.away
  sides : ∀ rule ∈ t.rules, ∀ cap, rule.demand = .ca1 cap → cap.side = .home ∨ cap.side = .away

section Ids

theorem length_firstIds (count : Nat) : (firstIds count).length = count := by simp [firstIds]

theorem pairwise_firstIds (count : Nat) : (firstIds count).Pairwise (· < ·) := by
  rw [firstIds, List.pairwise_map]
  exact List.pairwise_lt_range.imp Int.ofNat_lt.mpr

/-- Listed in ascending order, ids count up from zero exactly if they are a permutation of the first
natural numbers. A repetition leaves fewer ids than have to be there. -/
theorem ascending_eq_firstIds_iff {ids : List Int} :
    ascending ids = firstIds ids.length ↔ ids.Perm (firstIds ids.length) := by
  constructor
  · intro h
    have hsubset : firstIds ids.length ⊆ ids := fun id hid => mem_ascending.mp (h ▸ hid)
    have hnodup : (firstIds ids.length).Nodup := (pairwise_firstIds _).imp fun hlt => hlt.ne
    have hsubperm : (firstIds ids.length).Subperm ids := List.subperm_of_subset hnodup hsubset
    exact (hsubperm.perm_of_length_le (length_firstIds _).ge).symm
  · intro h
    exact eq_of_pairwise_of_mem_iff (pairwise_ascending ids) (pairwise_firstIds _) fun id =>
      mem_ascending.trans h.mem_iff

end Ids

theorem perm_of_readIds {resource : Resource} {root : Markup.Element} {ids : List Int}
    (h : resource.readIds root = .ok ids) : ids.Perm (firstIds ids.length) ∧ 1 ≤ ids.length := by
  obtain ⟨-, hempty, hfirst⟩ := Resource.readIds_eq_ok_iff.mp h
  exact ⟨ascending_eq_firstIds_iff.mp hfirst, List.length_pos_of_ne_nil hempty⟩

theorem Tournament.guaranteed_of_ofElement {root : Markup.Element} {t : Tournament}
    (h : Tournament.ofElement root = .ok t) : t.Guaranteed := by
  obtain ⟨u, hu, hteams, hslots, hrules⟩ := Tournament.of_ofElement h
  obtain ⟨hteamIds, hslotIds, htwo, heven⟩ := Universe.of_read hu
  rw [← hteams] at hteamIds htwo heven
  rw [← hslots] at hslotIds
  have hrule : ∀ rule ∈ t.rules, (∃ attributes, rule.Format attributes) ∧
      (∀ id ∈ rule.demand.teamIds, 0 ≤ id ∧ id < t.teamCount) ∧
      ∀ id ∈ rule.demand.slotIds, 0 ≤ id ∧ id < t.slotCount := by
    intro rule hrule
    obtain ⟨element, helement⟩ := hrules rule hrule
    obtain ⟨hformat, hids⟩ := Universe.rule_of_readRule? helement
    rw [← hteams, ← hslots] at hids
    exact ⟨⟨_, hformat⟩, hids⟩
  refine ⟨(perm_of_readIds hteamIds).1, heven, htwo, (perm_of_readIds hslotIds).1,
    (perm_of_readIds hslotIds).2, fun rule h id hid => ?_, fun rule h id hid => ?_,
    fun rule _ bound _ game _ => game.home_ne_away, fun rule h cap hcap => ?_⟩
  · exact (hrule rule h).2.1 id (Demand.mem_teamIds.mpr hid)
  · exact (hrule rule h).2.2 id (Demand.mem_slotIds.mpr hid)
  · obtain ⟨⟨_, hformat⟩, -⟩ := hrule rule h
    have hside := hformat.oneSided hcap
    cases hcase : cap.side with
    | home => exact .inl rfl
    | away => exact .inr rfl
    | both => exact absurd hcase hside

/-- A loaded tournament is sound, whichever reader gives the elements of its document. Ids are
refused only if they are no permutation of the first natural numbers, and a rule only for an id that
is not among them. -/
theorem Tournament.guaranteed :
    (∀ (read? : Markup.Reader) text t, Tournament.readBy read? text = .ok t → t.Guaranteed) ∧
    (∀ (resource : Resource) (root : Markup.Element) (ids : List Int),
      List.Forall₂ (fun id element => Carries element.attributes "id" (IdFor id)) ids
        (root.findAll resource.tag) → ids ≠ [] →
      ((∃ failure, resource.readIds root = .error failure) ↔ ¬ ids.Perm (firstIds ids.length))) ∧
    ∀ (rule : Rule) (teamCount slotCount : Nat),
      (∃ failure, rule.checkIds teamCount slotCount = .error failure) ↔
        (∃ id, rule.demand.HasTeam id ∧ ¬ (0 ≤ id ∧ id < teamCount)) ∨
        ∃ id, rule.demand.HasSlot id ∧ ¬ (0 ≤ id ∧ id < slotCount) := by
  refine ⟨fun read? text t h => ?_, fun resource root ids hids hne => ?_, fun rule n k => ?_⟩
  · obtain ⟨document, -, -, h⟩ := Tournament.ofElement_of_readBy h
    exact Tournament.guaranteed_of_ofElement h
  · have hread : (root.findAll resource.tag).mapM resource.readId = .ok ids :=
      mapM_eq_ok_iff.mpr (hids.imp fun _ _ => Resource.readId_eq_ok_iff.mpr)
    rw [exists_error_iff, not_iff_not, ← ascending_eq_firstIds_iff]
    constructor
    · rintro ⟨found, hfound⟩
      obtain ⟨hfound, -, hfirst⟩ := Resource.readIds_eq_ok_iff.mp hfound
      rw [hread] at hfound
      exact Except.ok.inj hfound ▸ hfirst
    · exact fun hfirst => ⟨ids, Resource.readIds_eq_ok_iff.mpr ⟨hread, hne, hfirst⟩⟩
  · rw [exists_error_iff]
    simp only [Rule.checkIds_eq_ok_iff, Demand.mem_teamIds, Demand.mem_slotIds, exists_const,
      not_and_or, not_forall, exists_prop]

/-- Ids out of order, white space around them, and a game. -/
def crossedText : String :=
  "<Instance><team id=\"1\"/><team id=\" 0\"/><slot id=\"1\"/><slot id=\"+0\"/><Constraints>" ++
  "<GA1 type=\"HARD\" max=\"1\" slots=\"1;\" meetings=\"0, 1;;\"/></Constraints></Instance>"

def crossedTournament : Tournament where
  name := none
  teams := [1, 0]
  slots := [1, 0]
  phased := false
  rules :=
    [⟨.hard, .ga1 { min := 0, max := 1, slots := [1], meetings := [⟨0, 1, Int.zero_ne_one⟩] }⟩]

/-- Two teams with the same id. -/
def repeatedTeams : Markup.Element where
  tag := "Instance"
  attributes := []
  children :=
    [.element ⟨"team", [("id", "0")], [], default⟩, .element ⟨"team", [("id", " 0")], [], default⟩]
  span := default

theorem guaranteed_crossedTournament :
    (Tournament.read crossedText = .ok crossedTournament ∧ crossedTournament.Guaranteed) ∧
    (∃ failure, Resource.team.readIds repeatedTeams = .error failure) ∧
    ∃ failure,
      (⟨.hard, .se1 { min := 0, teams := [0, 2] }⟩ : Rule).checkIds 2 2 = .error failure := by
  have hread : Tournament.read crossedText = .ok crossedTournament :=
    eq_ok_of_toOption (by decide +kernel)
  obtain ⟨hloaded, hids, hcheck⟩ := Tournament.guaranteed
  have hzero : ∀ value, Text.integer? idLimit (Text.trim value) = some 0 → IdFor 0 value :=
    fun _ => integer?_trim_iff.mp
  refine ⟨⟨hread, hloaded _ _ _ hread⟩,
    (hids .team repeatedTeams [0, 0] ?_ (by decide)).mpr (by decide),
    (hcheck _ 2 2).mpr (.inl ⟨2, ?_, by decide⟩)⟩
  · exact .cons ⟨"0", rfl, hzero _ (by decide)⟩ (.cons ⟨" 0", rfl, hzero _ (by decide)⟩ .nil)
  · simp [Demand.HasTeam]

end RoundRobin
