import RoundRobin.Proofs.Format.Value
import RoundRobin.Proofs.Steps
import RoundRobin.Rule.Description
import RoundRobin.Rule.Reader

/-! The format of rules: which attributes an element of each kind carries, and in which forms. A
rule is read exactly from the elements that have its format. -/

namespace RoundRobin

/-- An attribute whose value has a form. -/
def Carries (attributes : List (String × String)) (name : String)
    (Form : List Char → Prop) : Prop :=
  ∃ value, attributes.lookup name = some value ∧ Form value.toList

/-- A number that may be left out if it is zero. -/
def CarriesOrZero (attributes : List (String × String)) (name : String) (n : Nat) : Prop :=
  Carries attributes name (NumberFor n) ∨ attributes.lookup name = none ∧ n = 0

/-- The penalty of a hard rule can be anything. -/
def Strength.Format (attributes : List (String × String)) : Strength → Prop
  | .hard => attributes.lookup "type" = some "HARD"
  | .soft penalty =>
    attributes.lookup "type" = some "SOFT" ∧ Carries attributes "penalty" (NumberFor penalty)

def Demand.Format (attributes : List (String × String)) : Demand → Prop
  | .ca1 d =>
    CarriesOrZero attributes "min" d.min ∧ Carries attributes "max" (NumberFor d.max) ∧
      (attributes.lookup "mode" = some d.side.code ∧ d.side ≠ .both) ∧
      Carries attributes "teams" (ListFor IdFor d.teams) ∧
      Carries attributes "slots" (ListFor IdFor d.slots)
  | .ca2 d =>
    attributes.lookup "mode2" = some "GLOBAL" ∧
      CarriesOrZero attributes "min" d.min ∧ Carries attributes "max" (NumberFor d.max) ∧
      attributes.lookup "mode1" = some d.side.code ∧
      Carries attributes "teams1" (ListFor IdFor d.teams) ∧
      Carries attributes "teams2" (ListFor IdFor d.opponents) ∧
      Carries attributes "slots" (ListFor IdFor d.slots)
  | .ca3 d =>
    attributes.lookup "mode2" = some "SLOTS" ∧
      CarriesOrZero attributes "min" d.min ∧ Carries attributes "max" (NumberFor d.max) ∧
      Carries attributes "intp" (NumberFor d.window) ∧
      attributes.lookup "mode1" = some d.side.code ∧
      Carries attributes "teams1" (ListFor IdFor d.teams) ∧
      Carries attributes "teams2" (ListFor IdFor d.opponents)
  | .ca4 d =>
    attributes.lookup "mode2" = some d.scope.code ∧
      CarriesOrZero attributes "min" d.min ∧ Carries attributes "max" (NumberFor d.max) ∧
      attributes.lookup "mode1" = some d.side.code ∧
      Carries attributes "teams1" (ListFor IdFor d.teams) ∧
      Carries attributes "teams2" (ListFor IdFor d.opponents) ∧
      Carries attributes "slots" (ListFor IdFor d.slots)
  | .ga1 d =>
    CarriesOrZero attributes "min" d.min ∧ Carries attributes "max" (NumberFor d.max) ∧
      Carries attributes "slots" (ListFor IdFor d.slots) ∧
      Carries attributes "meetings" (ListFor GameFor d.meetings)
  | .se1 d =>
    attributes.lookup "mode1" = some "SLOTS" ∧ Carries attributes "min" (NumberFor d.min) ∧
      Carries attributes "teams" (ListFor IdFor d.teams)
  | .br1 d =>
    attributes.lookup "mode1" = some "LEQ" ∧ Carries attributes "intp" (NumberFor d.limit) ∧
      attributes.lookup "mode2" = some d.side.code ∧
      Carries attributes "teams" (ListFor IdFor d.teams) ∧
      Carries attributes "slots" (ListFor IdFor d.slots)
  | .br2 d =>
    (attributes.lookup "homeMode" = some "HA" ∧ attributes.lookup "mode2" = some "LEQ") ∧
      Carries attributes "intp" (NumberFor d.limit) ∧
      Carries attributes "teams" (ListFor IdFor d.teams) ∧
      Carries attributes "slots" (ListFor IdFor d.slots)
  | .fa2 d =>
    attributes.lookup "mode" = some "H" ∧ Carries attributes "intp" (NumberFor d.limit) ∧
      Carries attributes "teams" (ListFor IdFor d.teams) ∧
      Carries attributes "slots" (ListFor IdFor d.slots)

/-- The attributes of an element that stands for a rule. -/
def Rule.Format (attributes : List (String × String)) (rule : Rule) : Prop :=
  rule.strength.Format attributes ∧ rule.demand.Format attributes

namespace Entry

variable {entry : Entry} {name value : String}

theorem required_eq_ok_iff : entry.required name = .ok value ↔
    entry.attributes.lookup name = some value := by
  unfold required
  cases entry.attributes.lookup name with
  | none => simp
  | some found => simp

theorem wellFormed_eq_ok_iff {α : Type} {result : Option α} {a : α} :
    entry.wellFormed name value result = .ok a ↔ result = some a := by
  cases result with
  | none => simp [wellFormed]
  | some found => simp [wellFormed]

theorem number_eq_ok_iff {n : Nat} :
    entry.number name = .ok n ↔ Carries entry.attributes name (NumberFor n) := by
  simp only [number, bind_eq_ok_iff, required_eq_ok_iff, wellFormed_eq_ok_iff,
    natural?_trim_iff, Carries]

theorem numberOrZero_eq_ok_iff {n : Nat} :
    entry.numberOrZero name = .ok n ↔ CarriesOrZero entry.attributes name n := by
  unfold numberOrZero CarriesOrZero
  cases h : entry.attributes.lookup name with
  | none => simp [Carries, h, eq_comm]
  | some found => simp [number_eq_ok_iff]

theorem ids_eq_ok_iff {ids : List Int} :
    entry.ids name = .ok ids ↔ Carries entry.attributes name (ListFor IdFor ids) := by
  have hitems : ∀ value : String, List.Forall₂ (fun id item => Text.integer? idLimit item = some id)
      ids (listItems value) ↔ ListFor IdFor ids value.toList := fun _ =>
    forall₂_listItems_iff fun _ _ => integer?_trim_iff
  simp only [Entry.ids, bind_eq_ok_iff, required_eq_ok_iff, wellFormed_eq_ok_iff,
    mapM_eq_some_iff, hitems, Carries]

theorem meeting_eq_ok_iff {item : List Char} {game : Match} :
    entry.meeting name value item = .ok game ↔ teamPair? item = some (game.home, game.away) := by
  simp only [meeting, bind_eq_ok_iff, wellFormed_eq_ok_iff]
  constructor
  · rintro ⟨⟨home, away⟩, hpair, h⟩
    unfold Match.of? at h
    by_cases heq : home = away
    · simp [heq] at h
    · simp only [heq, dite_false, Except.ok.injEq] at h
      rw [hpair, ← h]
  · intro hpair
    exact ⟨_, hpair, by simp [Match.of?, game.home_ne_away]⟩

theorem meetings_eq_ok_iff {games : List Match} :
    entry.meetings name = .ok games ↔ Carries entry.attributes name (ListFor GameFor games) := by
  have hitems : ∀ value : String,
      List.Forall₂ (fun game item => teamPair? item = some (game.home, game.away))
        games (listItems value) ↔ ListFor GameFor games value.toList := fun _ =>
    forall₂_listItems_iff fun _ _ => teamPair?_trim_iff
  simp only [meetings, bind_eq_ok_iff, required_eq_ok_iff, mapM_eq_ok_iff, meeting_eq_ok_iff,
    hitems, Carries]

theorem literal_eq_ok_iff {expected : String} {done : Unit} :
    entry.literal name expected = .ok done ↔ entry.attributes.lookup name = some expected := by
  simp only [literal, bind_eq_ok_iff, required_eq_ok_iff]
  constructor
  · rintro ⟨value, hvalue, h⟩
    by_cases heq : value = expected
    · rw [hvalue, heq]
    · rw [if_neg heq] at h
      exact nomatch h
  · exact fun h => ⟨expected, h, if_pos rfl⟩

theorem strength_eq_ok_iff {strength : Strength} :
    entry.strength = .ok strength ↔ strength.Format entry.attributes := by
  simp only [Entry.strength, bind_eq_ok_iff, required_eq_ok_iff]
  constructor
  · rintro ⟨value, hvalue, h⟩
    split_ifs at h with hhard hsoft
    · subst value
      obtain rfl := Except.ok.inj h
      exact hvalue
    · subst value
      obtain ⟨penalty, hpenalty, rfl⟩ := map_eq_ok_iff.mp h
      exact ⟨hvalue, number_eq_ok_iff.mp hpenalty⟩
    · exact nomatch h
  · intro h
    cases strength with
    | hard => exact ⟨"HARD", h, rfl⟩
    | soft penalty =>
      obtain ⟨htype, hpenalty⟩ := h
      exact ⟨"SOFT", htype, map_eq_ok_iff.mpr ⟨penalty, number_eq_ok_iff.mpr hpenalty, rfl⟩⟩

theorem oneSide_eq_ok_iff {side : Side} : entry.oneSide name = .ok side ↔
    entry.attributes.lookup name = some side.code ∧ side ≠ .both := by
  simp only [oneSide, bind_eq_ok_iff, required_eq_ok_iff]
  constructor
  · rintro ⟨value, hvalue, h⟩
    split_ifs at h with hhome haway
    · subst value
      obtain rfl := Except.ok.inj h
      exact ⟨hvalue, by decide⟩
    · subst value
      obtain rfl := Except.ok.inj h
      exact ⟨hvalue, by decide⟩
    · exact nomatch h
  · rintro ⟨hvalue, hside⟩
    refine ⟨side.code, hvalue, ?_⟩
    cases side with
    | home => rfl
    | away => rfl
    | both => exact absurd rfl hside

theorem anySide_eq_ok_iff {side : Side} : entry.anySide name = .ok side ↔
    entry.attributes.lookup name = some side.code := by
  simp only [anySide, bind_eq_ok_iff, required_eq_ok_iff]
  constructor
  · rintro ⟨value, hvalue, h⟩
    split_ifs at h with hboth
    · subst value
      obtain rfl := Except.ok.inj h
      exact hvalue
    · exact (oneSide_eq_ok_iff.mp h).1
  · intro hvalue
    refine ⟨side.code, hvalue, ?_⟩
    by_cases hboth : side = .both
    · rw [hboth]
      rfl
    · have hcode : side.code ≠ "HA" := by
        cases side with
        | home => decide
        | away => decide
        | both => exact absurd rfl hboth
      rw [if_neg hcode]
      exact oneSide_eq_ok_iff.mpr ⟨hvalue, hboth⟩

theorem scope_eq_ok_iff {scope : Scope} : entry.scope name = .ok scope ↔
    entry.attributes.lookup name = some scope.code := by
  simp only [Entry.scope, bind_eq_ok_iff, required_eq_ok_iff]
  constructor
  · rintro ⟨value, hvalue, h⟩
    split_ifs at h with hglobal hevery
    · subst value
      obtain rfl := Except.ok.inj h
      exact hvalue
    · subst value
      obtain rfl := Except.ok.inj h
      exact hvalue
    · exact nomatch h
  · intro hvalue
    refine ⟨scope.code, hvalue, ?_⟩
    cases scope with
    | global => rfl
    | every => rfl

end Entry

/-- A demand that is read has its format, the values that are checked beforehand included. -/
theorem Demand.format_of_ofEntry {entry : Entry} {demand : Demand}
    (hform : entry.checkForm = .ok ()) (h : Demand.ofEntry entry = .ok demand) :
    demand.kind = entry.kind ∧ demand.Format entry.attributes := by
  obtain ⟨kind, attributes⟩ := entry
  unfold Entry.checkForm at hform
  unfold Demand.ofEntry at h
  cases kind <;> simp only [bind_eq_ok_iff, pure_eq_ok_iff, Entry.numberOrZero_eq_ok_iff,
    Entry.number_eq_ok_iff, Entry.ids_eq_ok_iff, Entry.meetings_eq_ok_iff, Entry.literal_eq_ok_iff,
    Entry.oneSide_eq_ok_iff, Entry.anySide_eq_ok_iff, Entry.scope_eq_ok_iff] at hform h
  case ca1 =>
    obtain ⟨min, hmin, max, hmax, side, hside, teams, hteams, slots, hslots, rfl⟩ := h
    exact ⟨rfl, hmin, hmax, hside, hteams, hslots⟩
  case ca2 =>
    obtain ⟨min, hmin, max, hmax, side, hside, teams, hteams, opponents, hopponents, slots, hslots,
      rfl⟩ := h
    exact ⟨rfl, hform, hmin, hmax, hside, hteams, hopponents, hslots⟩
  case ca3 =>
    obtain ⟨min, hmin, max, hmax, window, hwindow, side, hside, teams, hteams, opponents,
      hopponents, rfl⟩ := h
    exact ⟨rfl, hform, hmin, hmax, hwindow, hside, hteams, hopponents⟩
  case ca4 =>
    obtain ⟨scope, hscope, min, hmin, max, hmax, side, hside, teams, hteams, opponents, hopponents,
      slots, hslots, rfl⟩ := h
    exact ⟨rfl, hscope, hmin, hmax, hside, hteams, hopponents, hslots⟩
  case ga1 =>
    obtain ⟨min, hmin, max, hmax, slots, hslots, games, hgames, rfl⟩ := h
    exact ⟨rfl, hmin, hmax, hslots, hgames⟩
  case se1 =>
    obtain ⟨min, hmin, teams, hteams, rfl⟩ := h
    exact ⟨rfl, hform, hmin, hteams⟩
  case br1 =>
    obtain ⟨limit, hlimit, side, hside, teams, hteams, slots, hslots, rfl⟩ := h
    exact ⟨rfl, hform, hlimit, hside, hteams, hslots⟩
  case br2 =>
    obtain ⟨-, hhome, hmode⟩ := hform
    obtain ⟨limit, hlimit, teams, hteams, slots, hslots, rfl⟩ := h
    exact ⟨rfl, ⟨hhome, hmode⟩, hlimit, hteams, hslots⟩
  case fa2 =>
    obtain ⟨limit, hlimit, teams, hteams, slots, hslots, rfl⟩ := h
    exact ⟨rfl, hform, hlimit, hteams, hslots⟩

/-- The attributes in the format of a demand pass the check of their form and are read as the
demand. -/
theorem Demand.ofEntry_of_format {attributes : List (String × String)} {demand : Demand}
    (h : demand.Format attributes) :
    Entry.checkForm { kind := demand.kind, attributes } = .ok () ∧
      Demand.ofEntry { kind := demand.kind, attributes } = .ok demand := by
  unfold Entry.checkForm Demand.ofEntry
  cases demand <;> simp only [Demand.kind, bind_eq_ok_iff, pure_eq_ok_iff, discard_eq_ok_iff,
    Entry.numberOrZero_eq_ok_iff, Entry.number_eq_ok_iff, Entry.ids_eq_ok_iff,
    Entry.meetings_eq_ok_iff, Entry.literal_eq_ok_iff, Entry.oneSide_eq_ok_iff,
    Entry.anySide_eq_ok_iff, Entry.scope_eq_ok_iff]
  case ca1 d =>
    obtain ⟨hmin, hmax, hside, hteams, hslots⟩ := h
    exact ⟨trivial, _, hmin, _, hmax, _, hside, _, hteams, _, hslots, rfl⟩
  case ca2 d =>
    obtain ⟨hmode, hmin, hmax, hside, hteams, hopponents, hslots⟩ := h
    exact ⟨hmode, _, hmin, _, hmax, _, hside, _, hteams, _, hopponents, _, hslots, rfl⟩
  case ca3 d =>
    obtain ⟨hmode, hmin, hmax, hwindow, hside, hteams, hopponents⟩ := h
    exact ⟨hmode, _, hmin, _, hmax, _, hwindow, _, hside, _, hteams, _, hopponents, rfl⟩
  case ca4 d =>
    obtain ⟨hscope, hmin, hmax, hside, hteams, hopponents, hslots⟩ := h
    exact ⟨⟨_, hscope⟩, _, hscope, _, hmin, _, hmax, _, hside, _, hteams, _, hopponents, _, hslots,
      rfl⟩
  case ga1 d =>
    obtain ⟨hmin, hmax, hslots, hgames⟩ := h
    exact ⟨trivial, _, hmin, _, hmax, _, hslots, _, hgames, rfl⟩
  case se1 d =>
    obtain ⟨hmode, hmin, hteams⟩ := h
    exact ⟨hmode, _, hmin, _, hteams, rfl⟩
  case br1 d =>
    obtain ⟨hmode, hlimit, hside, hteams, hslots⟩ := h
    exact ⟨hmode, _, hlimit, _, hside, _, hteams, _, hslots, rfl⟩
  case br2 d =>
    obtain ⟨⟨hhome, hmode⟩, hlimit, hteams, hslots⟩ := h
    exact ⟨⟨(), hhome, hmode⟩, _, hlimit, _, hteams, _, hslots, rfl⟩
  case fa2 d =>
    obtain ⟨hmode, hlimit, hteams, hslots⟩ := h
    exact ⟨hmode, _, hlimit, _, hteams, _, hslots, rfl⟩

theorem Rule.ofEntry_eq_ok_iff {entry : Entry} {rule : Rule} :
    Rule.ofEntry entry = .ok rule ↔ rule.kind = entry.kind ∧ rule.Format entry.attributes := by
  obtain ⟨strength, demand⟩ := rule
  simp only [Rule.ofEntry, bind_eq_ok_iff, pure_eq_ok_iff, Entry.strength_eq_ok_iff]
  constructor
  · rintro ⟨⟨⟩, hform, strength, hstrength, demand, hdemand, h⟩
    obtain ⟨rfl, rfl⟩ := Rule.mk.inj h
    obtain ⟨hkind, hformat⟩ := Demand.format_of_ofEntry hform hdemand
    exact ⟨hkind, hstrength, hformat⟩
  · obtain ⟨kind, attributes⟩ := entry
    rintro ⟨rfl, hstrength, hformat⟩
    obtain ⟨hform, hdemand⟩ := Demand.ofEntry_of_format hformat
    exact ⟨(), hform, strength, hstrength, demand, hdemand, rfl⟩

theorem Rule.format_of_read? {tag : String} {attributes : List (String × String)} {rule : Rule}
    (h : Rule.read? tag attributes = .ok (some rule)) : rule.Format attributes := by
  unfold Rule.read? at h
  split at h
  · obtain ⟨found, hentry, hfound⟩ := map_eq_ok_iff.mp h
    obtain rfl := Option.some.inj hfound
    exact (Rule.ofEntry_eq_ok_iff.mp hentry).2
  · exact nomatch Except.ok.inj h

/-- A capacity rule on one side has a side. -/
theorem Rule.Format.oneSided {attributes : List (String × String)} {rule : Rule}
    (h : rule.Format attributes) {cap : SideCap} (hcap : rule.demand = .ca1 cap) :
    cap.side ≠ .both := by
  obtain ⟨-, h⟩ := h
  rw [hcap] at h
  obtain ⟨-, -, ⟨-, hside⟩, -⟩ := h
  exact hside

theorem Rule.read?_tag (kind : Kind) (attributes : List (String × String)) :
    Rule.read? kind.tag attributes = some <$> Rule.ofEntry { kind, attributes } := by
  rw [Rule.read?, Kind.ofTag?_eq_some_iff.mpr rfl]

/-- An element with the tag of a kind reads as the rule of that kind of which it has the format, and
is refused if there is none. -/
theorem Rule.read?_eq_ok_iff (kind : Kind) (attributes : List (String × String)) :
    (∀ rule, Rule.read? kind.tag attributes = .ok (some rule) ↔
      rule.kind = kind ∧ rule.Format attributes) ∧
    ((∃ failure, Rule.read? kind.tag attributes = .error failure) ↔
      ¬ ∃ rule : Rule, rule.kind = kind ∧ rule.Format attributes) := by
  have hread : ∀ rule, Rule.ofEntry { kind, attributes } = .ok rule ↔
      rule.kind = kind ∧ rule.Format attributes := fun _ => Rule.ofEntry_eq_ok_iff
  rw [Rule.read?_tag]
  refine ⟨fun rule => ?_, ?_⟩
  · simp only [map_eq_ok_iff, Option.some.injEq, exists_eq_right, hread]
  · simp only [← hread]
    cases Rule.ofEntry { kind, attributes } with
    | error failure => simp [Functor.map, Except.map]
    | ok rule => simp [Functor.map, Except.map]

end RoundRobin
