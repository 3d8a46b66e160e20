import RoundRobin.Proofs.Numbering.Run
import RoundRobin.Proofs.Meaning.Names
import RoundRobin.Proofs.Season.Counting
import RoundRobin.Proofs.Zimpl.Declaration
import RoundRobin.Proofs.Zimpl.Family

/-! The parameters and sets of a formulated tournament, and the violations that its soft rules
share: what their names stand for behind their declarations. -/

namespace RoundRobin

open Zimpl

/-- The parameters and sets that the rest of a program refers to. -/
structure Ground (t : Tournament) (env : Env) : Prop where
  teams : env.params.lookup "teams" = some (t.teamCount : Rat)
  slots : env.params.lookup "slots" = some (t.slotCount : Rat)
  perSlot : env.params.lookup "matches_per_slot" = some (t.teamCount / 2 : Rat)
  teamSet : (SetTerm.name "T").Lists env Tuple.one t.teamSet
  slotSet : (SetTerm.name "S").Lists env Tuple.one t.slotSet
  laterSlots : (SetTerm.name "S0").Lists env Tuple.one (t.slotSet.erase 0)
  firstHalf : (SetTerm.name "S1").Lists env Tuple.one t.firstHalf
  pairs : (SetTerm.name "M").Lists env Tuple.two t.teamSet.offDiag
  lesserPairs : (SetTerm.name "MR").Lists env Tuple.two {p ∈ t.teamSet ×ˢ t.teamSet | p.1 < p.2}

namespace Ground

variable {t : Tournament} {a b : Env}

def names : List String :=
  ["teams", "slots", "matches_per_slot", "T", "S", "S0", "S1", "M", "MR"]

theorem extend (h : Ground t a) {others : List String} (hext : a.Extends others b)
    (hothers : ∀ name ∈ names, name ∉ others) : Ground t b where
  teams := (hext.params _ (hothers _ (by decide))).trans h.teams
  slots := (hext.params _ (hothers _ (by decide))).trans h.slots
  perSlot := (hext.params _ (hothers _ (by decide))).trans h.perSlot
  teamSet := hext.lists (hothers _ (by decide)) h.teamSet
  slotSet := hext.lists (hothers _ (by decide)) h.slotSet
  laterSlots := hext.lists (hothers _ (by decide)) h.laterSlots
  firstHalf := hext.lists (hothers _ (by decide)) h.firstHalf
  pairs := hext.lists (hothers _ (by decide)) h.pairs
  lesserPairs := hext.lists (hothers _ (by decide)) h.lesserPairs

end Ground

@[simp] theorem Tournament.mem_firstHalf {t : Tournament} {id : Int} :
    id ∈ t.firstHalf ↔ 0 ≤ id ∧ 2 * id + 2 ≤ t.slotCount := by
  rw [Tournament.firstHalf, List.mem_toFinset, Tournament.mem_firstIds]
  omega

theorem Tournament.mem_slotSet_of_mem_firstHalf (t : Tournament) {id : Int} (h : id ∈ t.firstHalf) :
    id ∈ t.slotSet := by
  rw [Tournament.mem_firstHalf] at h
  rw [Tournament.mem_slotSet]
  omega

theorem cast_le_sub_one {i : Int} {n : Nat} : (i : Rat) ≤ n - 1 ↔ i < n := by
  rw [le_sub_iff_add_le, ← Int.add_one_le_iff]
  exact_mod_cast Iff.rfl

theorem cast_le_half_sub_one {i : Int} {n : Nat} : (i : Rat) ≤ n / 2 - 1 ↔ 2 * i + 2 ≤ n := by
  have h : (i : Rat) ≤ n / 2 - 1 ↔ (2 * i + 2 : Rat) ≤ n := by
    constructor <;> intro h <;> linarith
  rw [h]
  exact_mod_cast Iff.rfl

theorem Frame.lists_different {env : Env} {teams : Finset Int} (hsymbols : env.symbols = [])
    (hteams : (SetTerm.name "T").Lists env Tuple.one teams) :
    (Frame.pairSet (.ne "m" "n")).Lists env Tuple.two teams.offDiag := by
  have hruns : (Index.mk ["m", "n"] (times "T" "T") (.ne "m" "n")).Runs env Tuple.two
      (fun q => (env.bind "m" q.1).bind "n" q.2) {p ∈ teams ×ˢ teams | p.1 ≠ p.2} :=
    Index.runs_two_where (SetTerm.lists_pairs hteams hteams) (by simp [hsymbols])
      (by simp [hsymbols]) (by decide) fun q => by simp [Condition.holds?, Arith.value?]
  have hmembers : {p ∈ teams ×ˢ teams | p.1 ≠ p.2} = teams.offDiag := by
    ext p
    simp [and_assoc]
  exact hmembers ▸ hruns.builder

theorem Frame.lists_lesser {env : Env} {teams : Finset Int} (hsymbols : env.symbols = [])
    (hteams : (SetTerm.name "T").Lists env Tuple.one teams) :
    (Frame.pairSet (.lt "m" "n")).Lists env Tuple.two {p ∈ teams ×ˢ teams | p.1 < p.2} := by
  have hruns : (Index.mk ["m", "n"] (times "T" "T") (.lt "m" "n")).Runs env Tuple.two
      (fun q => (env.bind "m" q.1).bind "n" q.2) {p ∈ teams ×ˢ teams | p.1 < p.2} :=
    Index.runs_two_where (SetTerm.lists_pairs hteams hteams) (by simp [hsymbols])
      (by simp [hsymbols]) (by decide) fun q => by simp [Condition.holds?, Arith.value?]
  exact hruns.builder

/-- The numbers of teams and slots are known. -/
structure Counts (t : Tournament) (env : Env) : Prop where
  symbols : env.symbols = []
  teams : (Arith.name "teams").value? env = some (t.teamCount : Rat)
  slots : (Arith.name "slots").value? env = some (t.slotCount : Rat)

namespace Counts

variable {t : Tournament} {env after : Env}

theorem extend (h : Counts t env) {others : List String} (hext : env.Extends others after)
    (hteams : "teams" ∉ others) (hslots : "slots" ∉ others) : Counts t after where
  symbols := hext.symbols.trans h.symbols
  teams := (hext.value? hteams).trans h.teams
  slots := (hext.value? hslots).trans h.slots

theorem lists_teams (h : Counts t env) :
    (SetTerm.range 0 ("teams" - 1)).Lists env Tuple.one t.teamSet := by
  refine SetTerm.lists_range (Arith.value?_zero env)
    (Arith.value?_sub h.teams (Arith.value?_one env)) fun i => ?_
  rw [Tournament.mem_teamSet, cast_le_sub_one]
  simp

theorem value?_lastSlot (h : Counts t env) :
    ("slots" - 1 : Arith).value? env = some (t.slotCount - 1 : Rat) :=
  Arith.value?_sub h.slots (Arith.value?_one env)

theorem lists_slots (h : Counts t env) :
    (SetTerm.range 0 ("slots" - 1)).Lists env Tuple.one t.slotSet := by
  refine SetTerm.lists_range (Arith.value?_zero env) h.value?_lastSlot fun i => ?_
  rw [Tournament.mem_slotSet, cast_le_sub_one]
  exact_mod_cast Iff.rfl

theorem lists_laterSlots (h : Counts t env) :
    (SetTerm.range 1 ("slots" - 1)).Lists env Tuple.one (t.slotSet.erase 0) := by
  refine SetTerm.lists_range (Arith.value?_one env) h.value?_lastSlot fun i => ?_
  have hfirst : (1 : Rat) ≤ i ↔ 1 ≤ i := by exact_mod_cast Iff.rfl
  rw [Finset.mem_erase, Tournament.mem_slotSet, cast_le_sub_one, hfirst]
  omega

theorem lists_firstHalf (h : Counts t env) :
    (SetTerm.range 0 ("slots" / 2 - 1)).Lists env Tuple.one t.firstHalf := by
  refine SetTerm.lists_range (Arith.value?_zero env)
    (Arith.value?_sub (Arith.value?_half h.slots) (Arith.value?_one env)) fun i => ?_
  rw [Tournament.mem_firstHalf, cast_le_half_sub_one]
  exact_mod_cast Iff.rfl

end Counts

theorem Frame.adds_resources (t : Tournament) :
    ∃ after, Program.Adds ["teams", "slots", "T", "S", "S0", "S1", "S2", "SZ", "M", "MR",
      "matches_per_slot"] (Frame.resources t) {} after ∧ Ground t after := by
  obtain ⟨e1, h1, hteams⟩ := Program.adds_param "teams"
    (show (Arith.int t.teamCount).value? {} = some (t.teamCount : Rat) from rfl)
  obtain ⟨e2, h2, hslots⟩ := Program.adds_param "slots"
    (show (Arith.int t.slotCount).value? e1 = some (t.slotCount : Rat) from rfl)
  have hteams2 := (h2.params "teams" (by decide)).trans hteams
  have c2 : Counts t e2 :=
    have hsymbols : e2.symbols = [] := h2.symbols.trans h1.symbols
    ⟨hsymbols, by simp [Arith.value?, Env.value?, hsymbols, hteams2],
      by simp [Arith.value?, Env.value?, hsymbols, hslots]⟩
  obtain ⟨e3, h3, hT⟩ := Program.adds_set "T" c2.lists_teams
  have c3 := c2.extend h3.toExtends (by decide) (by decide)
  obtain ⟨e4, h4, hS⟩ := Program.adds_set "S" c3.lists_slots
  have c4 := c3.extend h4.toExtends (by decide) (by decide)
  obtain ⟨e5, h5, hS0⟩ := Program.adds_set "S0" c4.lists_laterSlots
  have c5 := c4.extend h5.toExtends (by decide) (by decide)
  obtain ⟨e6, h6, hS1⟩ := Program.adds_set "S1" c5.lists_firstHalf
  have c6 := c5.extend h6.toExtends (by decide) (by decide)
  obtain ⟨e7, h7, -⟩ := Program.adds_tuples "S2"
    (SetTerm.tuples?_range (Arith.value?_half c6.slots) c6.value?_lastSlot)
  have c7 := c6.extend h7.toExtends (by decide) (by decide)
  obtain ⟨e8, h8, -⟩ := Program.adds_tuples "SZ"
    (SetTerm.tuples?_range (Arith.value?_int e7 0)
      (Arith.value?_sub c7.slots (Arith.value?_int e7 2)))
  have c8 := c7.extend h8.toExtends (by decide) (by decide)
  have hT8 := (h4.append (h5.append (h6.append (h7.append h8)))).lists (by decide) hT
  obtain ⟨e9, h9, hM⟩ := Program.adds_set "M" (Frame.lists_different c8.symbols hT8)
  obtain ⟨e10, h10, hMR⟩ := Program.adds_set "MR"
    (Frame.lists_lesser (h9.symbols.trans c8.symbols) (h9.lists (by decide) hT8))
  have hT10 := (h9.append h10).lists (by decide) hT8
  obtain ⟨e11, h11, hperSlot⟩ := Program.adds_param "matches_per_slot"
    (Arith.value?_half (Arith.value?_card hT10))
  rw [t.card_teamSet] at hperSlot
  -- What each set stands for is carried behind the declarations that follow it.
  have r10 := h10.append h11
  have r9 := h9.append r10
  have r8 := h8.append r9
  have r7 := h7.append r8
  have r6 := h6.append r7
  have r5 := h5.append r6
  have r4 := h4.append r5
  have r3 := h3.append r4
  have hall := h1.append (h2.append r3)
  refine ⟨e11, ⟨hall.toExtends, hall.declares⟩, ?_⟩
  exact {
    teams := (r3.params _ (by decide)).trans hteams2
    slots := (r3.params _ (by decide)).trans hslots
    perSlot := hperSlot
    teamSet := h11.lists (by decide) hT10
    slotSet := r5.lists (by decide) hS
    laterSlots := r6.lists (by decide) hS0
    firstHalf := r7.lists (by decide) hS1
    pairs := r10.lists (by decide) hM
    lesserPairs := h11.lists (by decide) hMR }

/-- The places of the soft rules of a kind. -/
def Tournament.softPlaces (t : Tournament) (kind : Kind) : Finset Int := places (t.softCount kind)

/-- The soft rules of a kind, where there are any, are counted by a set, and have violations. -/
def HasShared (env : Env) (t : Tournament) (kind : Kind) : Prop :=
  t.softCount kind ≠ 0 → (SetTerm.name kind.tag).Lists env Tuple.one (t.softPlaces kind) ∧
    env.Ranges (kind.stem ++ "_viol") Tuple.one (t.softPlaces kind)

theorem HasShared.extend {a b : Env} {t : Tournament} {kind : Kind} {names : List String}
    (h : HasShared a t kind) (hext : a.Extends names b) (htag : kind.tag ∉ names)
    (hviolation : kind.stem ++ "_viol" ∉ names) : HasShared b t kind :=
  fun hcount => ⟨hext.lists htag (h hcount).1, hext.ranges hviolation (h hcount).2⟩

theorem Frame.adds_sharedArray (t : Tournament) (options : Options) (kind : Kind) (env : Env) :
    ∃ after, Program.Adds [kind.tag, kind.stem ++ "_viol", "ga1_min_viol"]
        (Frame.sharedArray t options kind) env after ∧ HasShared after t kind ∧
      (t.softCount kind ≠ 0 → kind = .ga1 → options.minPenalty = .separate →
        after.Ranges "ga1_min_viol" Tuple.one (t.softPlaces kind)) := by
  unfold Frame.sharedArray
  split
  · rename_i hcount
    exact ⟨env, (Program.adds_nil env).mono (by simp), fun h => absurd hcount h,
      fun h => absurd hcount h⟩
  · have hplaces : (SetTerm.range 1 (.int (t.softCount kind))).Lists env Tuple.one
        (t.softPlaces kind) := by
      refine SetTerm.lists_range (Arith.value?_one env) (Arith.value?_int env _) fun i => ?_
      rw [Tournament.softPlaces, mem_places]
      exact_mod_cast Iff.rfl
    have hnames : ∀ kind : Kind, kind.tag ∉ [kind.stem ++ "_viol"] := fun kind => by
      cases kind <;> decide
    obtain ⟨e1, h1, hset⟩ := Program.adds_set kind.tag hplaces
    obtain ⟨e2, h2, hviolation⟩ := Program.adds_var_over (kind.stem ++ "_viol") hset
    split
    · rename_i hseparate
      obtain ⟨rfl, hminimum⟩ := hseparate
      obtain ⟨e3, h3, hmin⟩ := Program.adds_var_over "ga1_min_viol" (h2.lists (hnames _) hset)
      exact ⟨e3, (h1.append h2).append h3, fun _ => ⟨(h2.append h3).lists (by decide) hset,
        h3.ranges (by decide) hviolation⟩, fun _ _ _ => hmin⟩
    · rename_i hshared
      exact ⟨e2, ((h1.append h2).append (Program.adds_nil e2)).mono (by simp),
        fun _ => ⟨h2.lists (hnames kind) hset, hviolation⟩, fun _ h h' => absurd ⟨h, h'⟩ hshared⟩

theorem Frame.softCount_of_sharedArray_eq_nil {t : Tournament} {options : Options} {kind : Kind}
    (h : Frame.sharedArray t options kind = []) : t.softCount kind = 0 := by
  by_contra hcount
  rw [Frame.sharedArray, if_neg hcount] at h
  exact nomatch h

theorem Frame.adds_sharedArrays (t : Tournament) (options : Options) (env : Env) :
    ∃ after, Program.Adds ["CA1", "ca1_viol", "CA2", "ca2_viol", "GA1", "ga1_viol", "ga1_min_viol"]
        (Frame.sharedArrays t options) env after ∧
      (options.soft = true → ∀ kind ∈ [Kind.ca1, .ca2, .ga1], HasShared after t kind) ∧
      (options.soft = true → options.minPenalty = .separate → t.softCount .ga1 ≠ 0 →
        after.Ranges "ga1_min_viol" Tuple.one (t.softPlaces .ga1)) := by
  obtain ⟨e1, h1, hca1, -⟩ := Frame.adds_sharedArray t options .ca1 env
  obtain ⟨e2, h2, hca2, -⟩ := Frame.adds_sharedArray t options .ca2 e1
  obtain ⟨e3, h3, hga1, hmin⟩ := Frame.adds_sharedArray t options .ga1 e2
  have hall := h1.append (h2.append (h3.append (Program.adds_nil e3)))
  have hadds :
      Program.Adds ["CA1", "ca1_viol", "CA2", "ca2_viol", "GA1", "ga1_viol", "ga1_min_viol"]
      ([Kind.ca1, .ca2, .ga1].flatMap (Frame.sharedArray t options)) env e3 :=
    ⟨hall.toExtends.mono (by decide), hall.declares⟩
  unfold Frame.sharedArrays
  dsimp only
  split
  · rename_i hnone
    have hzero : options.soft = true → ∀ kind ∈ [Kind.ca1, .ca2, .ga1], t.softCount kind = 0 :=
      fun hsoft kind hkind => by
        rw [hsoft, Bool.not_true, Bool.false_or, List.isEmpty_iff, List.flatMap_eq_nil_iff] at hnone
        exact Frame.softCount_of_sharedArray_eq_nil (hnone kind hkind)
    exact ⟨env, (Program.adds_nil env).mono (by simp),
      fun hsoft kind hkind h => absurd (hzero hsoft kind hkind) h,
      fun hsoft _ h => absurd (hzero hsoft .ga1 (by decide)) h⟩
  · refine ⟨e3, ⟨hadds.toExtends, hadds.declares⟩, fun _ kind hkind => ?_,
      fun _ h h' => hmin h' rfl h⟩
    simp only [List.mem_cons, List.not_mem_nil, or_false] at hkind
    rcases hkind with rfl | rfl | rfl
    · exact hca1.extend (h2.append h3).toExtends (by decide) (by decide)
    · exact hca2.extend h3.toExtends (by decide) (by decide)
    · exact hga1

end RoundRobin
