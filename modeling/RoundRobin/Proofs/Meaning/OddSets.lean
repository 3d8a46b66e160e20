import RoundRobin.Proofs.Meaning.Rows

/-! Odd sets of teams. The rows on all odd sizes up to half the teams bound the cuts of the larger
odd sets as well: of an even number of teams, those that an odd set leaves out are an odd set with
the same cut. -/

namespace RoundRobin

open Zimpl

/-- Those rows of a program hold that have one of some names, for games with values in a field. -/
def Zimpl.Program.HoldsOnIn {K : Type} [Field K] [LinearOrder K] (program : Program)
    (names : List String) (env : Env) (values : String → Tuple → K) : Prop :=
  ∀ block ∈ Program.subtos program, block.name ∈ names → block.HoldsIn env values

/-- An odd number of teams, from three up to half of them all. -/
def Tournament.IsOddSize (t : Tournament) (size : Nat) : Prop :=
  Odd size ∧ 3 ≤ size ∧ size ≤ t.teamCount / 2

instance (t : Tournament) (size : Nat) : Decidable (t.IsOddSize size) := by
  unfold Tournament.IsOddSize
  infer_instance

/-- A program has a family and a row for each odd size, and the rows bound the cuts of all odd sets
of teams that leave out at least three. -/
structure Tournament.CutsOddSets (t : Tournament) (program : Program) (env : Env) : Prop where
  family : ∀ size, (program.filter fun statement =>
      statement.declaredName? = some ("K" ++ toString size)) =
    if t.IsOddSize size then [.setFamily ("K" ++ toString size) (.subsets "T" size)] else []
  row : ∀ size,
    (program.subtos.filter fun block => block.name = "cos" ++ toString size).map (·.rows.length) =
      if t.IsOddSize size then [1] else []
  ofSize : ∀ size, t.IsOddSize size → ∀ {K : Type} [Field K] [LinearOrder K]
    (values : String → Tuple → K), program.HoldsOnIn ["cos" ++ toString size] env values ↔
      ∀ slot ∈ t.slotSet, ∀ teams ∈ t.teamSet.powersetCard size, 1 ≤ t.cut values teams slot
  complete : ∀ {K : Type} [Field K] [LinearOrder K] (values : String → Tuple → K),
    (∀ size, t.IsOddSize size → program.HoldsOnIn ["cos" ++ toString size] env values) ↔
      ∀ slot ∈ t.slotSet, ∀ teams ⊆ t.teamSet, Odd teams.card → 3 ≤ teams.card →
        teams.card + 3 ≤ t.teamCount → 1 ≤ t.cut values teams slot
  /-- For rational games this is what the program means. -/
  rational : ∀ (names : List String) (values : Assignment),
    program.HoldsOnIn names env values ↔ program.HoldsOn names env values

section Cuts

variable {t : Tournament} {K : Type} [AddCommMonoid K] {values : String → Tuple → K}

/-- Some teams play the others as often as these play them. -/
theorem Tournament.cut_sdiff {teams : Finset Int} (hsub : teams ⊆ t.teamSet) (slot : Int) :
    t.cut values (t.teamSet \ teams) slot = t.cut values teams slot := by
  rw [cut, cut, Finset.sdiff_sdiff_eq_self hsub]
  refine Finset.sum_equiv (Equiv.prodComm Int Int) (fun p => ?_) fun p _ => add_comm _ _
  rw [Equiv.prodComm_apply, Finset.mem_product, Finset.mem_product, and_comm]
  rfl

/-- The cuts of all odd sets are those of the odd sets of no more than half the teams. -/
theorem Tournament.forall_cut_iff (heven : Even t.teamCount) (values : String → Tuple → K)
    (p : K → Prop) (slot : Int) :
    (∀ size, t.IsOddSize size → ∀ teams ∈ t.teamSet.powersetCard size,
      p (t.cut values teams slot)) ↔
      ∀ teams ⊆ t.teamSet, Odd teams.card → 3 ≤ teams.card → teams.card + 3 ≤ t.teamCount →
        p (t.cut values teams slot) := by
  have hhalves := Nat.even_iff.mp heven
  constructor
  · intro h teams hsub hodd hthree hout
    have hcard : (t.teamSet \ teams).card = t.teamCount - teams.card := by
      rw [Finset.card_sdiff_of_subset hsub, t.card_teamSet]
    rcases Nat.le_total teams.card (t.teamCount / 2) with hle | hle
    · exact h _ ⟨hodd, hthree, hle⟩ teams (Finset.mem_powersetCard.mpr ⟨hsub, rfl⟩)
    · rw [← Tournament.cut_sdiff hsub]
      refine h _ ⟨?_, ?_, ?_⟩ _ (Finset.mem_powersetCard.mpr ⟨Finset.sdiff_subset, rfl⟩)
      · exact hcard ▸ Nat.Even.sub_odd (by omega) heven hodd
      · omega
      · omega
  · intro h size hsize teams hteams
    obtain ⟨hsub, rfl⟩ := Finset.mem_powersetCard.mp hteams
    obtain ⟨hodd, hthree, hhalf⟩ := hsize
    exact h teams hsub hodd hthree (by omega)

end Cuts

section Names

variable {t : Tournament} {options : Options}

/-- Where no name is taken twice, the members of a list that have one are a single one. -/
theorem filter_eq_singleton (name? : α → Option String) {items : List α}
    (hnodup : (items.filterMap name?).Nodup) {a : α} (ha : a ∈ items) {name : String}
    (hname : name? a = some name) : (items.filter fun item => name? item = some name) = [a] := by
  induction items with
  | nil => exact nomatch ha
  | cons item items ih =>
    by_cases hitem : name? item = some name
    · rw [List.filterMap_cons_some hitem, List.nodup_cons] at hnodup
      have hothers : ∀ other ∈ items, name? other ≠ some name := fun other hother heq =>
        hnodup.1 (List.mem_filterMap.mpr ⟨other, hother, heq⟩)
      obtain rfl | hmem := List.mem_cons.mp ha
      · rw [List.filter_cons_of_pos (by simpa using hitem), List.filter_eq_nil_iff.mpr]
        exact fun other hother => by simpa using hothers other hother
      · exact absurd hname (hothers a hmem)
    · obtain rfl | hmem := List.mem_cons.mp ha
      · exact absurd hname hitem
      · rw [List.filter_cons_of_neg (by simpa using hitem)]
        exact ih (hnodup.sublist ((List.sublist_cons_self item items).filterMap name?)) hmem

theorem mem_oddFamilies (hodd : options.oddSets = .all) {family : String × Nat} :
    family ∈ Frame.oddFamilies t options ↔
      t.IsOddSize family.2 ∧ family.1 = "cos" ++ toString family.2 := by
  obtain ⟨name, size⟩ := family
  simp only [Frame.oddFamilies, hodd, List.mem_map, List.mem_filter, List.mem_range,
    Bool.and_eq_true, decide_eq_true_eq, Prod.mk.injEq, Tournament.IsOddSize, Nat.odd_iff]
  constructor
  · rintro ⟨size, h, rfl, rfl⟩
    exact ⟨by omega, rfl⟩
  · rintro ⟨h, rfl⟩
    exact ⟨size, by omega, rfl, rfl⟩

/-- The names of families of other sizes than the odd ones are not taken. -/
theorem notMem_declaredNames (hodd : options.oddSets = .all) {size : Nat}
    (hsize : ¬ t.IsOddSize size) :
    "K" ++ toString size ∉ Program.declaredNames (t.program options) := by
  have hfixed : ∀ name ∈ Frame.fixedNames, Apart name "K" := by decide
  have hheads : ∀ head ∈ [Kind.ca3, .ca4, .se1, .br1, .br2, .fa2].flatMap fun kind =>
      [kind.tag, kind.stem], Apart "K" head := by decide
  rw [t.declaredNames_program, Tournament.entities, List.map_append, List.mem_append]
  rintro (hframe | hrule)
  · rcases Frame.mem_names_of_mem_entities hframe with hname | hname
    · exact (hfixed _ hname).ne_append rfl
    · refine (Frame.notMem_familyNames ?_).1 hname
      rintro hmem
      obtain ⟨family, hfamily, rfl⟩ := List.mem_map.mp hmem
      exact hsize ((mem_oddFamilies hodd).mp hfamily).1
  · rw [List.map_flatMap] at hrule
    obtain ⟨rule, -, hname⟩ := List.mem_flatMap.mp hrule
    obtain ⟨head, hhead, rest, heq⟩ :=
      Numbered.append_of_mem_ownNames ((rule.sublist_entities options).subset hname)
    exact (hheads head hhead).append_ne heq

/-- The names of rows on sets of other sizes than the odd ones are not taken. -/
theorem notMem_names_subtos (hodd : options.oddSets = .all) {size : Nat}
    (hsize : ¬ t.IsOddSize size) :
    "cos" ++ toString size ∉ (Program.subtos (t.program options)).map (·.name) := by
  have hfixed : ∀ name ∈ "oc1" :: Frame.fixedConstraints, Apart name "cos" := by decide
  have hstems : ∀ kind : Kind, Apart kind.stem "cos" := fun kind => by cases kind <;> decide
  rw [t.subtos_program, List.map_append, List.map_append, List.mem_append, List.mem_append]
  rintro ((hframe | hrule) | hgoal)
  · rw [((Frame.perm_subtos t options).map (·.name)).mem_iff, List.map_append, List.mem_append,
      Frame.names_oddFamilies] at hframe
    rcases hframe with hname | hname
    · exact (hfixed _ (.tail _ ((Frame.sublist_fixedBlocks t options).subset hname))).ne_append rfl
    · obtain ⟨family, hfamily, heq⟩ := List.mem_map.mp hname
      obtain ⟨hfamilySize, hfamilyName⟩ := (mem_oddFamilies hodd).mp hfamily
      have hequal := toString_injective (append_left_cancel (hfamilyName.symm.trans heq))
      exact hsize (hequal ▸ hfamilySize)
  · obtain ⟨block, hblock, hname⟩ := List.mem_map.mp hrule
    obtain ⟨rule, -, hblock⟩ := List.mem_flatMap.mp hblock
    obtain ⟨number, hnumber⟩ := Numbered.name_of_mem_subtos hblock
    rw [hnumber, Numbered.nameWith_eq] at hname
    exact (hstems _).append_ne hname
  · obtain hname := List.mem_singleton.mp ((sublist_names_goal options _).subset hgoal)
    exact (hfixed "oc1" (.head _)).ne_append hname.symm

/-- The statements on an odd size are all in the program. -/
theorem Frame.mem_program_of_oddSize (hodd : options.oddSets = .all) {size : Nat}
    (hsize : t.IsOddSize size) {statement : Statement}
    (h : statement ∈ Frame.oddFamily ("cos" ++ toString size) size) :
    statement ∈ t.program options := by
  have hframe : statement ∈ Frame.statements t options :=
    List.mem_append_left _ (List.mem_append_left _ (List.mem_append_left _ (List.mem_append_left _
      (List.mem_append_right _ (List.mem_flatMap.mpr
        ⟨(_, size), (mem_oddFamilies hodd).mpr ⟨hsize, rfl⟩, h⟩)))))
  rw [Tournament.program, List.append_assoc]
  exact List.mem_append_left _ hframe

/-- The row on an odd size is a single one. -/
theorem exists_block_of_oddSize (hodd : options.oddSets = .all) {size : Nat}
    (hsize : t.IsOddSize size) : ∃ block ∈ Program.subtos (t.program options),
      block.name = "cos" ++ toString size ∧ block.rows.length = 1 ∧
      Program.subtos (Frame.oddFamily ("cos" ++ toString size) size) = [block] :=
  ⟨_, List.mem_filterMap.mpr ⟨_, Frame.mem_program_of_oddSize hodd hsize
    (.tail _ (.tail _ (.tail _ (.tail _ (.head _))))), rfl⟩, rfl, rfl, rfl⟩

end Names

section Sizes

variable {t : Tournament} {options : Options} (hnames : (t.program options).NamedApart)
  (hodd : options.oddSets = .all)
include hnames hodd

theorem filter_oddFamily (size : Nat) :
    ((t.program options).filter fun statement =>
        statement.declaredName? = some ("K" ++ toString size)) =
      if t.IsOddSize size then [.setFamily ("K" ++ toString size) (.subsets "T" size)] else [] := by
  split
  · rename_i hsize
    refine filter_eq_singleton Statement.declaredName? hnames.declarations ?_ rfl
    exact Frame.mem_program_of_oddSize hodd hsize (.tail _ (.tail _ (.head _)))
  · rename_i hsize
    refine List.filter_eq_nil_iff.mpr fun statement hstatement hname => ?_
    exact notMem_declaredNames hodd hsize
      (List.mem_filterMap.mpr ⟨statement, hstatement, of_decide_eq_true hname⟩)

theorem length_rows_oddFamily (size : Nat) :
    ((Program.subtos (t.program options)).filter fun block =>
        block.name = "cos" ++ toString size).map (·.rows.length) =
      if t.IsOddSize size then [1] else [] := by
  split
  · rename_i hsize
    obtain ⟨block, hblock, hname, hrows, -⟩ := exists_block_of_oddSize hodd hsize
    have hsingle := filter_eq_singleton (fun block : Subto => some block.name)
      (List.filterMap_eq_map ▸ hnames.constraints) hblock (congrArg some hname)
    simp only [Option.some.injEq] at hsingle
    rw [hsingle, List.map_singleton, hrows]
  · rename_i hsize
    rw [List.filter_eq_nil_iff.mpr]
    · rfl
    · exact fun block hblock hname => notMem_names_subtos hodd hsize
        (List.mem_map.mpr ⟨block, hblock, of_decide_eq_true hname⟩)

theorem Stage.holdsOnIn_oddSize {env : Env} (stage : Stage t options env) {size : Nat}
    (hsize : t.IsOddSize size) {K : Type} [Field K] [LinearOrder K] (values : String → Tuple → K) :
    (t.program options).HoldsOnIn ["cos" ++ toString size] env values ↔
      ∀ slot ∈ t.slotSet, ∀ teams ∈ t.teamSet.powersetCard size, 1 ≤ t.cut values teams slot := by
  have hmem : ("cos" ++ toString size, size) ∈ Frame.oddFamilies t options :=
    (mem_oddFamilies hodd).mpr ⟨hsize, rfl⟩
  obtain ⟨block, hblock, hname, -, hsubtos⟩ := exists_block_of_oddSize hodd hsize
  rw [← stage.toScene.oddFamily_holdsIn stage.symbols ("cos" ++ toString size)
    (stage.families _ hmem), hsubtos, List.forall_mem_singleton, ← hname]
  exact hnames.forall_named_iff hblock

end Sizes

/-- An even number of teams has all its odd sets bounded by the rows on those of up to half the
teams. -/
theorem Tournament.cutsOddSets {t : Tournament} {options : Options} {program : Program}
    (hprogram : t.formulate options = .ok program) (hodd : options.oddSets = .all)
    (heven : Even t.teamCount) :
    ∃ env, program.env? = some env ∧ t.CutsOddSets program env := by
  obtain ⟨rfl, hcheck⟩ := Tournament.of_formulate hprogram
  have hnames := t.names_apart options
  obtain ⟨env, henv, stage⟩ := Tournament.stage hcheck
  refine ⟨env, henv, ?_⟩
  constructor
  case family => exact filter_oddFamily hnames hodd
  case row => exact length_rows_oddFamily hnames hodd
  case ofSize => exact fun size hsize => stage.holdsOnIn_oddSize hnames hodd hsize
  case complete =>
    intro K _ _ values
    have hofSize := fun size (hsize : t.IsOddSize size) =>
      stage.holdsOnIn_oddSize hnames hodd hsize values
    rw [forall₂_congr hofSize,
      ← forall₂_congr fun slot _ => t.forall_cut_iff heven values (1 ≤ ·) slot]
    exact ⟨fun h slot hslot size hsize => h size hsize slot hslot,
      fun h size hsize slot hslot => h slot hslot size hsize⟩
  case rational =>
    intro names values
    simp only [Program.HoldsOnIn, Program.HoldsOn, Subto.holdsIn_rat]

/-- Eight teams, of which at most four take part in a set that has a row. -/
def octetTournament : Tournament where
  name := none
  teams := Tournament.firstIds 8
  slots := Tournament.firstIds 14
  phased := false
  rules := []

/-- Of eight teams the sets of three have a row, and for real numbers of games it bounds the cuts of
the sets of five as well. -/
theorem cutsOddSets_octet :
    let program := octetTournament.program { oddSets := .all }
    ∃ env, program.env? = some env ∧ ∀ values : String → Tuple → ℝ,
      program.HoldsOnIn ["cos3"] env values ↔
        ∀ slot ∈ octetTournament.slotSet, ∀ teams ⊆ octetTournament.teamSet,
          teams.card = 3 ∨ teams.card = 5 → 1 ≤ octetTournament.cut values teams slot := by
  intro program
  have hprogram : octetTournament.formulate { oddSets := .all } = .ok program := rfl
  have hcount : octetTournament.teamCount = 8 := rfl
  obtain ⟨env, henv, hcuts⟩ := Tournament.cutsOddSets hprogram rfl (by decide)
  refine ⟨env, henv, fun values => ?_⟩
  have hsize : ∀ size, octetTournament.IsOddSize size ↔ size = 3 := fun size => by
    rw [Tournament.IsOddSize, hcount, Nat.odd_iff]
    omega
  have hcomplete := hcuts.complete values
  simp only [hsize, forall_eq] at hcomplete
  refine hcomplete.trans (forall₄_congr fun slot _ teams _ => ?_)
  rw [hcount, Nat.odd_iff]
  constructor
  · exact fun h hcard => h (by omega) (by omega) (by omega)
  · exact fun h hodd hthree hout => h (by omega)

end RoundRobin
