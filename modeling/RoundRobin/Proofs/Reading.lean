import RoundRobin.Loader
import RoundRobin.Proofs.Format.Rule
import RoundRobin.Proofs.Season.Timetable

/-! What a tournament that was read from a document guarantees: its ids are the first natural
numbers, its teams are even in number, its rules mention only its own teams and slots, and a
capacity rule on one side names a side. -/

namespace RoundRobin

namespace Tournament

theorem mem_firstIds {count : Nat} {id : Int} :
    id ∈ firstIds count ↔ 0 ≤ id ∧ id < count := by
  simp only [firstIds, List.mem_map, List.mem_range]
  constructor
  · rintro ⟨i, hi, rfl⟩
    exact ⟨Int.natCast_nonneg i, Int.ofNat_lt.mpr hi⟩
  · rintro ⟨h0, hlt⟩
    exact ⟨id.toNat, by omega, by simpa using h0⟩

@[simp] theorem mem_teamSet {t : Tournament} {id : Int} :
    id ∈ t.teamSet ↔ 0 ≤ id ∧ id < t.teamCount := by
  rw [teamSet, List.mem_toFinset, mem_firstIds]

@[simp] theorem mem_slotSet {t : Tournament} {id : Int} :
    id ∈ t.slotSet ↔ 0 ≤ id ∧ id < t.slotCount := by
  rw [slotSet, List.mem_toFinset, mem_firstIds]

/-- The tournaments that are read from documents. -/
structure WellFormed (t : Tournament) : Prop where
  two_le : 2 ≤ t.teamCount
  even : t.teamCount % 2 = 0
  teamIds : ∀ rule ∈ t.rules, ∀ id ∈ rule.demand.teamIds, id ∈ t.teamSet
  slotIds : ∀ rule ∈ t.rules, ∀ id ∈ rule.demand.slotIds, id ∈ t.slotSet
  oneSided : ∀ rule ∈ t.rules, ∀ cap, rule.demand = .ca1 cap → cap.side ≠ .both

end Tournament

theorem checkKnown_eq_ok_iff {kind : Kind} {resource : Resource} {count : Nat} {ids : List Int}
    {done : Unit} : checkKnown kind resource count ids = .ok done ↔
      ∀ id ∈ ids, 0 ≤ id ∧ id < count := by
  have hnone : (ids.find? fun id => id < 0 ∨ (count : Int) ≤ id) = none ↔
      ∀ id ∈ ids, 0 ≤ id ∧ id < count := by
    simp [List.find?_eq_none]
  rw [← hnone]
  unfold checkKnown
  cases ids.find? fun id => id < 0 ∨ (count : Int) ≤ id with
  | none => simp
  | some id => simp

/-- A rule passes the check of its ids if each of them is below the number of its resource. -/
theorem Rule.checkIds_eq_ok_iff {teamCount slotCount : Nat} {rule : Rule} {done : Unit} :
    rule.checkIds teamCount slotCount = .ok done ↔
      (∀ id ∈ rule.demand.teamIds, 0 ≤ id ∧ id < teamCount) ∧
      ∀ id ∈ rule.demand.slotIds, 0 ≤ id ∧ id < slotCount := by
  simp only [Rule.checkIds, bind_eq_ok_iff, checkKnown_eq_ok_iff, exists_const]

/-- A rule that is read has the format of its element, and mentions only existing ids. -/
theorem Universe.rule_of_readRule? {u : Universe} {element : Markup.Element} {rule : Rule}
    (h : u.readRule? element = .ok (some rule)) :
    rule.Format element.attributes ∧
    (∀ id ∈ rule.demand.teamIds, 0 ≤ id ∧ id < u.teams.length) ∧
    ∀ id ∈ rule.demand.slotIds, 0 ≤ id ∧ id < u.slots.length := by
  obtain ⟨found, hfound, h⟩ := bind_eq_ok h
  cases found with
  | none => exact nomatch h
  | some found =>
    obtain ⟨_, hids, h⟩ := bind_eq_ok h
    obtain rfl := Option.some.inj (Except.ok.inj h)
    exact ⟨Rule.format_of_read? hfound, Rule.checkIds_eq_ok_iff.mp hids⟩

theorem Resource.readId_eq_ok_iff {resource : Resource} {element : Markup.Element} {id : Int} :
    resource.readId element = .ok id ↔ Carries element.attributes "id" (IdFor id) := by
  unfold Resource.readId Markup.Element.attribute? Carries
  cases element.attributes.lookup "id" with
  | none => simp
  | some value =>
    simp only [← integer?_trim_iff, Option.some.injEq, exists_eq_left']
    cases Text.integer? idLimit (Text.trim value.toList) with
    | none => simp
    | some found => simp

/-- The ids in document order are read if there are some and they count up from zero in ascending
order. -/
theorem Resource.readIds_eq_ok_iff {resource : Resource} {root : Markup.Element} {ids : List Int} :
    resource.readIds root = .ok ids ↔ (root.findAll resource.tag).mapM resource.readId = .ok ids ∧
      ids ≠ [] ∧ ascending ids = Tournament.firstIds ids.length := by
  simp only [Resource.readIds, bind_eq_ok_iff]
  constructor
  · rintro ⟨found, hfound, h⟩
    split_ifs at h with hempty hfirst
    obtain rfl := Except.ok.inj h
    exact ⟨hfound, hempty, hfirst⟩
  · rintro ⟨hids, hempty, hfirst⟩
    exact ⟨ids, hids, by rw [if_neg hempty, if_pos hfirst]⟩

theorem Universe.of_read {root : Markup.Element} {u : Universe} (h : Universe.read root = .ok u) :
    Resource.team.readIds root = .ok u.teams ∧ Resource.slot.readIds root = .ok u.slots ∧
      2 ≤ u.teams.length ∧ u.teams.length % 2 = 0 := by
  obtain ⟨teams, hteams, h⟩ := bind_eq_ok h
  obtain ⟨slots, hslots, h⟩ := bind_eq_ok h
  split_ifs at h with hsize
  obtain rfl := Except.ok.inj h
  have hcount : 2 ≤ teams.length ∧ teams.length % 2 = 0 := by omega
  exact ⟨hteams, hslots, hcount⟩

/-- A tournament has the teams and the slots of its universe, and each of its rules is read from an
element. -/
theorem Tournament.of_ofElement {root : Markup.Element} {t : Tournament}
    (h : Tournament.ofElement root = .ok t) :
    ∃ u, Universe.read root = .ok u ∧ t.teams = u.teams ∧ t.slots = u.slots ∧
      ∀ rule ∈ t.rules, ∃ element, u.readRule? element = .ok (some rule) := by
  obtain ⟨u, hu, h⟩ := bind_eq_ok h
  obtain ⟨read, hread, h⟩ := bind_eq_ok h
  obtain rfl := Except.ok.inj h
  refine ⟨u, hu, rfl, rfl, fun rule hrule => ?_⟩
  obtain ⟨found, hfound, rfl⟩ := List.mem_filterMap.mp hrule
  obtain ⟨element, -, helement⟩ := exists_of_mem_mapM hread _ hfound
  exact ⟨element, helement⟩

theorem Tournament.wellFormed_of_ofElement {root : Markup.Element} {t : Tournament}
    (h : Tournament.ofElement root = .ok t) : t.WellFormed := by
  obtain ⟨u, hu, hteams, hslots, hrules⟩ := Tournament.of_ofElement h
  obtain ⟨-, -, htwo, heven⟩ := Universe.of_read hu
  have hteamCount : t.teamCount = u.teams.length := congrArg List.length hteams
  have hslotCount : t.slotCount = u.slots.length := congrArg List.length hslots
  refine ⟨by omega, by omega, fun rule h => ?_, fun rule h => ?_, fun rule h => ?_⟩ <;>
    obtain ⟨element, helement⟩ := hrules rule h <;>
    obtain ⟨hformat, hteamIds, hslotIds⟩ := Universe.rule_of_readRule? helement
  · exact fun id hid => mem_teamSet.mpr (hteamCount ▸ hteamIds id hid)
  · exact fun id hid => mem_slotSet.mpr (hslotCount ▸ hslotIds id hid)
  · exact fun cap hcap => hformat.oneSided hcap

/-- Reading a tournament comes down to reading its universe and its rules from the root. -/
theorem Tournament.ofElement_of_readBy {read? : Markup.Reader} {text : String} {t : Tournament}
    (h : Tournament.readBy read? text = .ok t) : ∃ document, read? text = some document ∧
      document.checkClosed = .ok () ∧ Tournament.ofElement document.root = .ok t := by
  unfold Tournament.readBy at h
  split at h
  · rename_i document hdocument
    obtain ⟨_, hclosed, h⟩ := bind_eq_ok h
    exact ⟨document, hdocument, hclosed, h⟩
  · cases h

theorem Tournament.wellFormed_of_readBy {read? : Markup.Reader} {text : String} {t : Tournament}
    (h : Tournament.readBy read? text = .ok t) : t.WellFormed := by
  obtain ⟨document, -, -, h⟩ := Tournament.ofElement_of_readBy h
  exact wellFormed_of_ofElement h

/-! A text that is written as a string has its characters by the way of an encoding, which takes
long to evaluate. A text that is known is read from its characters instead. -/

section Characters

variable {text : String} {cs piece : List Char}

theorem toList_append_ofList (h : text.toList = cs) :
    (text ++ String.ofList piece).toList = cs ++ piece := by
  rw [String.toList_append, String.toList_ofList, h]

def Markup.Document.ofChars? (cs : List Char) : Option Document := do
  let body ← skipProlog? cs
  let (tokens, behind) ← if body.head? = some '<' then tokens? 0 body else none
  let root ← Element.ofTokens? tokens
  match ← skipRemarks? behind with
  | [] => return { text := cs, root }
  | _ => none

theorem Markup.Document.read?_eq (h : text.toList = cs) :
    Document.read? text = Document.ofChars? cs := by
  rw [← h]
  rfl

theorem Tournament.read_eq_ok {t : Tournament} (htext : text.toList = cs)
    (h : ((Markup.Document.ofChars? cs).bind fun document =>
      (Tournament.ofDocument document).toOption) = some t) : Tournament.read text = .ok t := by
  obtain ⟨document, hdocument, h⟩ := Option.bind_eq_some_iff.mp h
  rw [Tournament.read, Tournament.readBy, Markup.Document.read?_eq htext, hdocument]
  exact eq_ok_of_toOption h

end Characters

theorem Universe.notCompact_notMem_ruleNotes (u : Universe) (n k : Nat) :
    (elements : List Markup.Element) → Note.notCompact n k ∉ u.ruleNotes elements
  | [] => by simp [Universe.ruleNotes]
  | element :: elements => by
    have ih := notCompact_notMem_ruleNotes u n k elements
    unfold Universe.ruleNotes
    split
    · simp
    · exact ih
    · split
      · simp [ih]
      · exact ih

/-- The loader warns of a tournament that was read unless it has as many slots as a double round
robin needs. -/
theorem Tournament.notCompact_mem_readNotes {read? : Markup.Reader} {text : String} {t : Tournament}
    (h : Tournament.readBy read? text = .ok t) :
    (∃ n k, Note.notCompact n k ∈ Tournament.readNotesBy read? text) ↔
      t.slotCount ≠ 2 * (t.teamCount - 1) := by
  obtain ⟨document, hdocument, hclosed, h⟩ := Tournament.ofElement_of_readBy h
  obtain ⟨u, hu, h'⟩ := bind_eq_ok h
  obtain ⟨rules, -, h'⟩ := bind_eq_ok h'
  obtain rfl := Except.ok.inj h'
  have hcompact : u.isCompact = true ↔ u.slots.length = 2 * (u.teams.length - 1) := by
    simp [Universe.isCompact]
  have hnotes : ∀ n k, Note.notCompact n k ∈ Tournament.readNotesBy read? text ↔
      u.isCompact = false ∧ n = u.teams.length ∧ k = u.slots.length := fun n k => by
    have hrules := u.notCompact_notMem_ruleNotes n k (ruleElements document.root)
    rw [Tournament.readNotesBy, hdocument]
    simp only [hclosed, Tournament.elementNotes, hu, h]
    cases u.isCompact <;> cases elementText? document.root "numberRoundRobin" <;>
      simp [hrules]
  simp only [hnotes]
  show (∃ n k, u.isCompact = false ∧ n = u.teams.length ∧ k = u.slots.length) ↔
    u.slots.length ≠ 2 * (u.teams.length - 1)
  rw [Ne, ← hcompact]
  simp

end RoundRobin
