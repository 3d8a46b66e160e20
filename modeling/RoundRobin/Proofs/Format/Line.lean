import RoundRobin.Proofs.Format.Rule

/-! Rules on one line. The line of a rule is cut at its blanks into the tag and the attributes,
which have the format of the rule, so the rule is read back from its line. -/

namespace RoundRobin

open Text

/-- A token cut at its first `=` into the name and the value of an attribute. -/
def attributeOf (token : List Char) : String × String :=
  (String.ofList (token.takeWhile (· ≠ '=')), String.ofList ((token.dropWhile (· ≠ '=')).drop 1))

/-- Reads the rule of a line: the tag up to the first blank, and an attribute in each token
behind. -/
def Rule.ofLine (line : String) : Except Failure (Option Rule) :=
  match split ' ' line.toList with
  | tag :: tokens => Rule.read? (String.ofList tag) (tokens.map attributeOf)
  | [] => .ok none

def Strength.numbers : Strength → List Nat
  | .hard => []
  | .soft penalty => [penalty]

/-- The numbers in a demand, ids apart. -/
def Demand.numbers : Demand → List Nat
  | .ca1 d => [d.min, d.max]
  | .ca2 d => [d.min, d.max]
  | .ca3 d => [d.min, d.max, d.window]
  | .ca4 d => [d.min, d.max]
  | .ga1 d => [d.min, d.max]
  | .se1 d => [d.min]
  | .br1 d => [d.limit]
  | .br2 d => [d.limit]
  | .fa2 d => [d.limit]

/-- The rules with numbers of 32 bits, ids of 64 bits, and a side where a capacity rule needs
one. -/
structure Rule.Writable (rule : Rule) : Prop where
  penalty : ∀ n ∈ rule.strength.numbers, n < 2 ^ 32
  numbers : ∀ n ∈ rule.demand.numbers, n < 2 ^ 32
  teamIds : ∀ id ∈ rule.demand.teamIds, -2 ^ 63 ≤ id ∧ id < 2 ^ 63
  slotIds : ∀ id ∈ rule.demand.slotIds, -2 ^ 63 ≤ id ∧ id < 2 ^ 63
  oneSided : ∀ cap, rule.demand = .ca1 cap → cap.side ≠ .both

section Values

variable {cs : List Char} {c : Char}

theorem numberFor_toString {n : Nat} (h : n < 2 ^ 32) : NumberFor n (toString n).toList := by
  obtain ⟨hlimit, hcore⟩ := natural?_eq_some_iff.mp (natural?_toString h)
  exact ⟨hlimit, _, hcore, .refl _⟩

theorem idFor_toString {id : Int} (h : -2 ^ 63 ≤ id ∧ id < 2 ^ 63) :
    IdFor id (toString id).toList := by
  obtain ⟨hlimit, hcore⟩ := integer?_eq_some_iff.mp (integer?_toString h)
  exact ⟨hlimit, _, hcore, .refl _⟩

theorem gameFor_code {game : Match} (hhome : -2 ^ 63 ≤ game.home ∧ game.home < 2 ^ 63)
    (haway : -2 ^ 63 ≤ game.away ∧ game.away < 2 ^ 63) : GameFor game game.code.toList :=
  ⟨_, _, by simp [Match.code], idFor_toString hhome, idFor_toString haway⟩

theorem IdFor.not_blank {id : Int} (h : IdFor id cs) : ¬ Blank cs := by
  intro hblank
  have hread := integer?_trim_iff.mpr h
  rw [trim_eq_nil_iff.mpr hblank] at hread
  exact nomatch hread

theorem GameFor.not_blank {game : Match} (h : GameFor game cs) : ¬ Blank cs := by
  obtain ⟨home, away, rfl, -, -⟩ := h
  intro hblank
  exact absurd (hblank ',' (by simp)) (by decide)

/-- The marks that are no part of a numeral. -/
def IsMark (c : Char) : Prop := ¬ (c.isDigit = true ∨ c = '+' ∨ c = '-')

instance : DecidablePred IsMark := fun _ => inferInstanceAs (Decidable (¬ _))

theorem notMem_toString_int (hc : IsMark c) (id : Int) : c ∉ (toString id).toList := by
  have hsigned : Signed id (toString id).toList := signed?_eq_some_iff.mp (signed?_toString id)
  exact fun hmem => hc (hsigned.mem c hmem)

theorem notMem_toString_nat (hc : IsMark c) (n : Nat) : c ∉ (toString n).toList :=
  notMem_toString_int hc n

theorem notMem_code (hc : IsMark c) (hcomma : c ≠ ',') (game : Match) : c ∉ game.code.toList := by
  simp only [Match.code, String.toList_append, List.mem_append, not_or]
  exact ⟨⟨notMem_toString_int hc game.home, by simpa using hcomma⟩,
    notMem_toString_int hc game.away⟩

theorem notMem_join {α : Type} {code : α → String} {values : List α} (hc : c ≠ ';')
    (h : ∀ a ∈ values, c ∉ (code a).toList) : c ∉ (";".intercalate (values.map code)).toList := by
  rw [String.toList_intercalate]
  refine notMem_intercalate hc fun piece hpiece => ?_
  obtain ⟨text, htext, rfl⟩ := List.mem_map.mp hpiece
  obtain ⟨a, ha, rfl⟩ := List.mem_map.mp htext
  exact h a ha

/-- Values between semicolons are a list of what each of them stands for, also if there are none. -/
theorem listFor_join {α : Type} {Item : α → List Char → Prop} {code : α → String} {values : List α}
    (hitem : ∀ a ∈ values, Item a (code a).toList) (hfilled : ∀ a ∈ values, ¬ Blank (code a).toList)
    (hmark : ∀ a ∈ values, ';' ∉ (code a).toList) :
    ListFor Item values (";".intercalate (values.map code)).toList := by
  rw [String.toList_intercalate, List.map_map]
  by_cases hvalues : values = []
  · subst hvalues
    exact ⟨[[]], by simp, by simp, by simp, by simp [Blank]⟩
  · have hfilter : ((values.map (String.toList ∘ code)).filter fun item => ¬ Blank item) =
        values.map (String.toList ∘ code) := by
      rw [List.filter_eq_self]
      simpa using hfilled
    refine ⟨values.map (String.toList ∘ code),
      by simpa using hvalues, by simpa using hmark, rfl, ?_⟩
    rw [hfilter, List.forall₂_map_right_iff, List.forall₂_same]
    exact hitem

theorem listFor_idList {ids : List Int} (h : ∀ id ∈ ids, -2 ^ 63 ≤ id ∧ id < 2 ^ 63) :
    ListFor IdFor ids (idList ids).toList :=
  listFor_join (fun id hid => idFor_toString (h id hid))
    (fun id hid => (idFor_toString (h id hid)).not_blank)
    fun id _ => notMem_toString_int (by decide) id

theorem listFor_codes {games : List Match}
    (h : ∀ id ∈ games.flatMap fun game => [game.home, game.away], -2 ^ 63 ≤ id ∧ id < 2 ^ 63) :
    ListFor GameFor games (";".intercalate (games.map Match.code)).toList := by
  have hgame : ∀ game ∈ games, GameFor game game.code.toList := fun game hgame =>
    gameFor_code (h _ (List.mem_flatMap.mpr ⟨game, hgame, by simp⟩))
      (h _ (List.mem_flatMap.mpr ⟨game, hgame, by simp⟩))
  exact listFor_join hgame (fun game hmem => (hgame game hmem).not_blank)
    fun game _ => notMem_code (by decide) (by decide) game

end Values

section Attributes

variable {attributes : List (String × String)} {name : String} {strength : Strength}
  {demand : Demand} {rule : Rule}

theorem carries_number {n : Nat} (hlookup : attributes.lookup name = some (toString n))
    (h : n < 2 ^ 32) : Carries attributes name (NumberFor n) :=
  ⟨_, hlookup, numberFor_toString h⟩

theorem carries_ids {ids : List Int} (hlookup : attributes.lookup name = some (idList ids))
    (h : ∀ id ∈ ids, -2 ^ 63 ≤ id ∧ id < 2 ^ 63) : Carries attributes name (ListFor IdFor ids) :=
  ⟨_, hlookup, listFor_idList h⟩

/-- The attributes of a strength do not hide those of a demand. -/
theorem Demand.format_append
    (h : demand.Format attributes) : demand.Format (strength.attributes ++ attributes) := by
  have hlookup : ∀ name, name ≠ "type" → name ≠ "penalty" →
      (strength.attributes ++ attributes).lookup name = attributes.lookup name := by
    intro name htype hpenalty
    have htype := beq_eq_false_iff_ne.mpr htype
    have hpenalty := beq_eq_false_iff_ne.mpr hpenalty
    cases strength with
    | hard => simp [Strength.attributes, List.lookup, htype]
    | soft penalty => simp [Strength.attributes, List.lookup, htype, hpenalty]
  unfold Demand.Format CarriesOrZero Carries at h ⊢
  cases demand <;> simpa (disch := decide) only [hlookup] using h

theorem Strength.format_attributes (h : ∀ n ∈ strength.numbers, n < 2 ^ 32)
    (rest : List (String × String)) : strength.Format (strength.attributes ++ rest) := by
  cases strength with
  | hard => exact rfl
  | soft penalty => exact ⟨rfl, _, rfl, numberFor_toString (h penalty (.head _))⟩

theorem Demand.format_attributes (hnumbers : ∀ n ∈ demand.numbers, n < 2 ^ 32)
    (hteams : ∀ id ∈ demand.teamIds, -2 ^ 63 ≤ id ∧ id < 2 ^ 63)
    (hslots : ∀ id ∈ demand.slotIds, -2 ^ 63 ≤ id ∧ id < 2 ^ 63)
    (hside : ∀ cap, demand = .ca1 cap → cap.side ≠ .both) : demand.Format demand.attributes := by
  cases demand <;> simp only [Demand.numbers, Demand.teamIds, Demand.slotIds,
    List.forall_mem_cons, List.forall_mem_append] at hnumbers hteams hslots
  case ca1 d =>
    obtain ⟨hmin, hmax, -⟩ := hnumbers
    exact ⟨.inl (carries_number rfl hmin), carries_number rfl hmax, ⟨rfl, hside d rfl⟩,
      carries_ids rfl hteams, carries_ids rfl hslots⟩
  case ca2 d =>
    obtain ⟨hmin, hmax, -⟩ := hnumbers
    exact ⟨rfl, .inl (carries_number rfl hmin), carries_number rfl hmax, rfl,
      carries_ids rfl hteams.1, carries_ids rfl hteams.2, carries_ids rfl hslots⟩
  case ca3 d =>
    obtain ⟨hmin, hmax, hwindow, -⟩ := hnumbers
    exact ⟨rfl, .inl (carries_number rfl hmin), carries_number rfl hmax, carries_number rfl hwindow,
      rfl, carries_ids rfl hteams.1, carries_ids rfl hteams.2⟩
  case ca4 d =>
    obtain ⟨hmin, hmax, -⟩ := hnumbers
    exact ⟨rfl, .inl (carries_number rfl hmin), carries_number rfl hmax, rfl,
      carries_ids rfl hteams.1, carries_ids rfl hteams.2, carries_ids rfl hslots⟩
  case ga1 d =>
    obtain ⟨hmin, hmax, -⟩ := hnumbers
    exact ⟨.inl (carries_number rfl hmin), carries_number rfl hmax, carries_ids rfl hslots, _, rfl,
      listFor_codes hteams⟩
  case se1 d =>
    obtain ⟨hmin, -⟩ := hnumbers
    exact ⟨rfl, carries_number rfl hmin, carries_ids rfl hteams⟩
  case br1 d =>
    obtain ⟨hlimit, -⟩ := hnumbers
    exact ⟨rfl, carries_number rfl hlimit, rfl, carries_ids rfl hteams, carries_ids rfl hslots⟩
  case br2 d =>
    obtain ⟨hlimit, -⟩ := hnumbers
    exact ⟨⟨rfl, rfl⟩, carries_number rfl hlimit, carries_ids rfl hteams, carries_ids rfl hslots⟩
  case fa2 d =>
    obtain ⟨hlimit, -⟩ := hnumbers
    exact ⟨rfl, carries_number rfl hlimit, carries_ids rfl hteams, carries_ids rfl hslots⟩

/-- The attributes of a rule have its format. -/
theorem Rule.Writable.format_attributes (h : rule.Writable) : rule.Format rule.attributes :=
  ⟨Strength.format_attributes h.penalty _, Demand.format_append
    (Demand.format_attributes h.numbers h.teamIds h.slotIds h.oneSided)⟩

end Attributes

section Tokens

/-- The text of an attribute stays together between blanks, and its name ends at the first `=`. -/
structure Unbroken (field : String × String) : Prop where
  name : ' ' ∉ field.1.toList ∧ '=' ∉ field.1.toList
  value : ' ' ∉ field.2.toList

theorem attributeOf_token {name value : String} (h : '=' ∉ name.toList) :
    attributeOf (name ++ "=" ++ value).toList = (name, value) := by
  have hname : ∀ c ∈ name.toList, decide (c ≠ '=') = true := by
    intro c hc
    have : c ≠ '=' := fun heq => h (heq ▸ hc)
    simpa using this
  have htoken : (name ++ "=" ++ value).toList = name.toList ++ '=' :: value.toList := by simp
  rw [attributeOf, htoken, List.takeWhile_append_of_pos hname, List.dropWhile_append_of_pos hname]
  simp

/-- The names of attributes. -/
def attributeNames : List String :=
  ["type", "penalty", "mode", "mode1", "mode2", "homeMode", "teams", "teams1", "teams2", "slots",
    "meetings", "min", "max", "intp"]

theorem Rule.name_mem_attributeNames (rule : Rule) :
    ∀ field ∈ rule.attributes, field.1 ∈ attributeNames := by
  obtain ⟨strength, demand⟩ := rule
  rw [Rule.attributes, List.forall_mem_append]
  constructor
  · cases strength <;> simp [Strength.attributes, attributeNames]
  · cases demand <;> simp [Demand.attributes, attributeNames]

theorem Rule.blank_notMem_value (rule : Rule) :
    ∀ field ∈ rule.attributes, ' ' ∉ field.2.toList := by
  have hnumber : ∀ n : Nat, ' ' ∉ (toString n).toList := notMem_toString_nat (by decide)
  have hside : ∀ side : Side, ' ' ∉ side.code.toList := fun side => by cases side <;> decide
  have hscope : ∀ scope : Scope, ' ' ∉ scope.code.toList := fun scope => by
    cases scope <;> decide
  have hids : ∀ ids, ' ' ∉ (idList ids).toList := fun ids =>
    notMem_join (by decide) fun id _ => notMem_toString_int (by decide) id
  have hgames : ∀ games : List Match, ' ' ∉ (";".intercalate (games.map Match.code)).toList :=
    fun games => notMem_join (by decide) fun game _ => notMem_code (by decide) (by decide) game
  obtain ⟨strength, demand⟩ := rule
  rw [Rule.attributes, List.forall_mem_append]
  constructor
  · cases strength <;> simp only [Strength.attributes, List.forall_mem_cons, hnumber] <;> decide
  · cases demand <;> simp only [Demand.attributes, List.forall_mem_cons, hnumber, hside, hscope,
      hids, hgames] <;> decide

theorem Rule.unbroken_attributes (rule : Rule) : ∀ field ∈ rule.attributes, Unbroken field := by
  have hnames : ∀ name ∈ attributeNames, ' ' ∉ name.toList ∧ '=' ∉ name.toList := by decide
  exact fun field hfield =>
    ⟨hnames field.1 (rule.name_mem_attributeNames field hfield),
      rule.blank_notMem_value field hfield⟩

/-- The line of a rule is cut into its tag and its attributes. -/
theorem Rule.split_text (rule : Rule) : split ' ' rule.text.toList =
    rule.kind.tag.toList :: rule.attributes.map fun field =>
      (field.1 ++ "=" ++ field.2).toList := by
  have htag : ∀ kind : Kind, ' ' ∉ kind.tag.toList := fun kind => by cases kind <;> decide
  have htoken : ∀ field ∈ rule.attributes, ' ' ∉ (field.1 ++ "=" ++ field.2).toList := by
    intro field hfield
    obtain ⟨hname, hvalue⟩ := rule.unbroken_attributes field hfield
    simp [hname.1, hvalue]
  rw [Rule.text, String.toList_intercalate, List.map_cons, List.map_map]
  refine split_intercalate (by simp) (List.forall_mem_cons.mpr ⟨htag rule.kind, fun token h => ?_⟩)
  obtain ⟨field, hfield, rfl⟩ := List.mem_map.mp h
  exact htoken field hfield

theorem Rule.ofLine_text (rule : Rule) :
    Rule.ofLine rule.text = Rule.read? rule.kind.tag rule.attributes := by
  have hattributes : (rule.attributes.map fun field => (field.1 ++ "=" ++ field.2).toList).map
      attributeOf = rule.attributes := by
    rw [List.map_map]
    refine (List.map_congr_left fun field hfield => ?_).trans (List.map_id _)
    exact attributeOf_token (rule.unbroken_attributes field hfield).name.2
  rw [Rule.ofLine, Rule.split_text]
  simp only [String.ofList_toList, hattributes]

theorem Rule.ofLine_of_writable {rule : Rule} (h : rule.Writable) :
    Rule.ofLine rule.text = .ok (some rule) := by
  rw [Rule.ofLine_text, Rule.read?_tag]
  exact map_eq_ok_iff.mpr ⟨rule, Rule.ofEntry_eq_ok_iff.mpr ⟨rfl, h.format_attributes⟩, rfl⟩

end Tokens

/-- A rule is read back from its line, so no two rules share a line. -/
theorem Rule.ofLine_eq_self {rule : Rule} (h : rule.Writable) :
    Rule.ofLine rule.text = .ok (some rule) ∧
    ∀ other : Rule, other.Writable → other.text = rule.text → other = rule := by
  refine ⟨Rule.ofLine_of_writable h, fun other hother htext => ?_⟩
  have hread := Rule.ofLine_of_writable hother
  rw [htext, Rule.ofLine_of_writable h] at hread
  exact (Option.some.inj (Except.ok.inj hread)).symm

/-- A rule with the largest numbers, the smallest and the largest id, and an empty list. -/
def widestRule : Rule where
  strength := .soft 4294967295
  demand := .ca3 {
    min := 0
    max := 4294967295
    window := 3
    side := .both
    teams := [-9223372036854775808, 9223372036854775807]
    opponents := [] }

theorem ofLine_widestRule :
    widestRule.Writable ∧
    Rule.ofLine ("CA3 type=SOFT penalty=4294967295 mode1=HA mode2=SLOTS intp=3 " ++
      "teams1=-9223372036854775808;9223372036854775807 teams2= min=0 max=4294967295") =
      .ok (some widestRule) ∧
    ∀ other : Rule, other.Writable → other.text = widestRule.text → other = widestRule := by
  have hwritable : widestRule.Writable := ⟨by decide, by decide, by decide, by decide, nofun⟩
  have htext : widestRule.text = "CA3 type=SOFT penalty=4294967295 mode1=HA mode2=SLOTS intp=3 " ++
      "teams1=-9223372036854775808;9223372036854775807 teams2= min=0 max=4294967295" := by
    decide +kernel
  obtain ⟨hread, hother⟩ := Rule.ofLine_eq_self hwritable
  exact ⟨hwritable, htext ▸ hread, hother⟩

end RoundRobin
