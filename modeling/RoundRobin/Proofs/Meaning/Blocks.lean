import RoundRobin.Proofs.Meaning.Charges

/-! Blocks of slots. The slots of a rule on the breaks of a group have to be an interval, in
whatever order and however often they are listed. The test goes through them in ascending order,
each once, so it only ever adds one to a slot that a greater one follows. -/

namespace RoundRobin

open Zimpl

/-- Whether some ids are all integers from a first one to a last one. No ids are an interval too. -/
def IsInterval (ids : List Int) : Prop := ∃ first last, ids.toFinset = Finset.Icc first last

theorem isInterval_iff {ids : List Int} :
    IsInterval ids ↔ ∃ first last, ∀ id, id ∈ ids ↔ first ≤ id ∧ id ≤ last := by
  simp only [IsInterval, Finset.ext_iff, List.mem_toFinset, Finset.mem_Icc]

theorem IsInterval.congr {ids others : List Int} (h : ∀ id, id ∈ ids ↔ id ∈ others) :
    IsInterval ids ↔ IsInterval others := by
  simp only [isInterval_iff, h]

/-- Ids without gaps reach from the first of them to some last one. -/
theorem isConsecutive_cons_iff {first : Int} {rest : List Int}
    (h : (first :: rest).Pairwise (· < ·)) : isConsecutive (first :: rest) = true ↔
      ∃ last, ∀ id, id ∈ first :: rest ↔ first ≤ id ∧ id ≤ last := by
  induction rest generalizing first with
  | nil =>
    refine iff_of_true rfl ⟨first, fun id => ?_⟩
    rw [List.mem_singleton]
    omega
  | cons second rest ih =>
    obtain ⟨hfirst, hrest⟩ := List.pairwise_cons.mp h
    have hlt := hfirst second (.head _)
    rw [isConsecutive, Bool.and_eq_true, decide_eq_true_eq, ih hrest]
    constructor
    · rintro ⟨rfl, last, hlast⟩
      have hle := ((hlast (first + 1)).mp (.head _)).2
      refine ⟨last, fun id => ?_⟩
      rw [List.mem_cons, hlast]
      omega
    · rintro ⟨last, hlast⟩
      have hle := ((hlast second).mp (.tail _ (.head _))).2
      have hmem : ∀ id, first < id → (id ∈ second :: rest ↔ id ≤ last) := fun id hid => by
        have hid' := hlast id
        rw [List.mem_cons, or_iff_right (by omega)] at hid'
        rw [hid']
        omega
      -- The integer behind the first id is listed, and the second is the least that it can be.
      have hsecond : second ≤ first + 1 := by
        rcases List.mem_cons.mp ((hmem (first + 1) (by omega)).mpr (by omega)) with hnext | hnext
        · omega
        · exact le_of_lt ((List.pairwise_cons.mp hrest).1 _ hnext)
      refine ⟨by omega, last, fun id => ?_⟩
      by_cases hid : first < id
      · rw [hmem id hid]
        omega
      · refine iff_of_false (fun hlisted => hid (hfirst id hlisted)) (by omega)

/-- Ascending ids have no gaps if and only if they are an interval. -/
theorem isConsecutive_iff_isInterval {ids : List Int} (h : ids.Pairwise (· < ·)) :
    isConsecutive ids = true ↔ IsInterval ids := by
  rw [isInterval_iff]
  cases ids with
  | nil => exact iff_of_true rfl ⟨1, 0, fun id => by simp; omega⟩
  | cons least rest =>
    rw [isConsecutive_cons_iff h]
    constructor
    · exact fun ⟨last, hlast⟩ => ⟨least, last, hlast⟩
    · rintro ⟨first, last, hids⟩
      obtain ⟨hfirst, hlast⟩ := (hids least).mp (.head _)
      have hle : least ≤ first := by
        rcases List.mem_cons.mp ((hids first).mpr ⟨le_rfl, by omega⟩) with heq | hrest
        · exact heq.ge
        · exact le_of_lt ((List.pairwise_cons.mp h).1 first hrest)
      obtain rfl : least = first := by omega
      exact ⟨last, hids⟩

theorem isInterval_of_card_le_one {ids : List Int} (h : ids.toFinset.card ≤ 1) :
    IsInterval ids := by
  rcases ids.toFinset.eq_empty_or_nonempty with hempty | hsome
  · exact ⟨1, 0, by rw [hempty]; rfl⟩
  · obtain ⟨id, hid⟩ := Finset.card_eq_one.mp (le_antisymm h hsome.card_pos)
    exact ⟨id, id, by rw [hid, Finset.Icc_self]⟩

namespace GroupBreaks

variable (breaks : GroupBreaks)

theorem mem_block {slot : Int} : slot ∈ breaks.block ↔ slot ∈ breaks.slots := mem_ascending

theorem pairwise_block : breaks.block.Pairwise (· < ·) := pairwise_ascending breaks.slots

theorem isConsecutive_block : isConsecutive breaks.block = true ↔ IsInterval breaks.slots := by
  rw [isConsecutive_iff_isInterval breaks.pairwise_block]
  exact IsInterval.congr fun _ => breaks.mem_block

theorem length_block : breaks.block.length = breaks.slots.toFinset.card := by
  have hnodup : breaks.block.Nodup := breaks.pairwise_block.imp fun h => ne_of_lt h
  have hset : breaks.block.toFinset = breaks.slots.toFinset :=
    Finset.ext fun id => by rw [List.mem_toFinset, List.mem_toFinset, mem_block]
  rw [← List.toFinset_card_of_nodup hnodup, hset]

/-- A slot that another one follows in the block is less than some id, so the id after it is one. -/
theorem next_inRange (hids : ∀ slot ∈ breaks.slots, -2 ^ 63 ≤ slot ∧ slot < 2 ^ 63)
    {before after : List Int} {slot next : Int}
    (h : breaks.block = before ++ slot :: next :: after) :
    -2 ^ 63 ≤ slot + 1 ∧ slot + 1 < 2 ^ 63 := by
  have hlt : slot < next := by
    have hpairs := breaks.pairwise_block
    rw [h] at hpairs
    exact (List.pairwise_cons.mp (List.pairwise_append.mp hpairs).2.1).1 next (.head _)
  have hslot := hids slot (breaks.mem_block.mp (by simp [h]))
  have hnext := hids next (breaks.mem_block.mp (by simp [h]))
  omega

theorem countedSlots_eq_drop :
    breaks.countedSlots = breaks.block.drop (min breaks.block.length 1) := by
  rw [countedSlots]
  cases breaks.block with
  | nil => rfl
  | cons first rest =>
    rw [List.length_cons, Nat.min_eq_right (Nat.le_add_left 1 _)]
    rfl

theorem countedSlots_eq_nil_iff : breaks.countedSlots = [] ↔ breaks.slots.toFinset.card < 2 := by
  rw [← breaks.length_block, ← List.length_eq_zero_iff, countedSlots, List.length_tail]
  omega

/-- The slots that count are those other than the least one. -/
theorem toFinset_countedSlots_of_isLeast {least : Int}
    (h : IsLeast {slot | slot ∈ breaks.slots} least) :
    breaks.countedSlots.toFinset = breaks.slots.toFinset.erase least := by
  rw [breaks.toFinset_countedSlots, inner]
  ext slot
  simp only [Finset.mem_filter, Finset.mem_erase, List.mem_toFinset]
  constructor
  · rintro ⟨hslot, earlier, hearlier, hlt⟩
    exact ⟨(lt_of_le_of_lt (h.2 hearlier) hlt).ne', hslot⟩
  · rintro ⟨hne, hslot⟩
    exact ⟨hslot, least, h.1, lt_of_le_of_ne (h.2 hslot) hne.symm⟩

theorem exists_isLeast (h : breaks.slots ≠ []) : ∃ least,
    IsLeast {slot | slot ∈ breaks.slots} least := by
  have hsome : breaks.slots.toFinset.Nonempty := List.toFinset_nonempty_iff _ |>.mpr h
  refine ⟨breaks.slots.toFinset.min' hsome, ?_, fun slot hslot => ?_⟩
  · exact List.mem_toFinset.mp (Finset.min'_mem _ hsome)
  · exact Finset.min'_le _ slot (List.mem_toFinset.mpr hslot)

end GroupBreaks

/-- What becomes of a rule on the breaks of a group, told by the set of its slots. -/
structure Numbered.FormulatesBlock (rule : Numbered) (breaks : GroupBreaks) (options : Options) :
    Prop where
  accepted : rule.check options = .ok () ↔ IsInterval breaks.slots
  /-- The failure shows the slots in ascending order, each once. -/
  refused : rule.check options = .error (.structural (.slotsWithGaps .br2 breaks.block)) ↔
    ¬ IsInterval breaks.slots
  small : breaks.slots.toFinset.card ≤ 1 → rule.check options = .ok ()
  /-- What the test for gaps adds up is an id again. -/
  sums : ∀ before slot next after, breaks.block = before ++ slot :: next :: after →
    -2 ^ 63 ≤ slot + 1 ∧ slot + 1 < 2 ^ 63
  /-- There are as many slots as are dropped in front of those that count. -/
  dropped : min breaks.block.length 1 ≤ breaks.block.length ∧
    breaks.countedSlots = breaks.block.drop (min breaks.block.length 1)
  /-- Less than two slots leave nothing to count. -/
  empty : rule.isSkipped options = false →
    (rule.fragment options = {} ↔ breaks.slots.toFinset.card < 2)
  /-- All slots but the least one count, for each team once. -/
  row : rule.isSkipped options = false → 2 ≤ breaks.slots.toFinset.card →
    ∃ least domain violation, IsLeast {slot | slot ∈ breaks.slots} least ∧
      (rule.fragment options).subtos = [⟨rule.name, [],
        [⟨.sumOver (.over ["t", "s"] domain) (breakOn .both), .le,
          atMost breaks.limit violation⟩]⟩] ∧
      ∀ env, domain.Lists env Tuple.two
        (breaks.teams.toFinset ×ˢ breaks.slots.toFinset.erase least)

namespace Numbered

variable {rule : Numbered} {breaks : GroupBreaks} {options : Options}

theorem check_block (hdemand : rule.rule.demand = .br2 breaks) : rule.check options =
    if isConsecutive breaks.block then .ok ()
    else .error (.structural (.slotsWithGaps .br2 breaks.block)) := by
  rw [check, hdemand]
  rfl

theorem fragment_block (hdemand : rule.rule.demand = .br2 breaks)
    (hskip : rule.isSkipped options = false) :
    rule.fragment options = breaks.fragment rule.rule.strength rule := by
  rw [fragment_of_not_skipped hskip, hdemand]

/-- A rule with slots that count adds one row, which bounds the breaks in all of them together. -/
theorem subtos_block (hdemand : rule.rule.demand = .br2 breaks)
    (hskip : rule.isSkipped options = false) (hcounted : breaks.countedSlots ≠ []) :
    (rule.fragment options).subtos = [⟨rule.name, [], [⟨.sumOver (.over ["t", "s"]
      (times (.ids breaks.teams) (.ids breaks.countedSlots))) (breakOn .both), .le,
      atMost breaks.limit (rule.rule.strength.inRow? (.scalar rule.violationName))⟩]⟩] := by
  rw [fragment_block hdemand hskip, GroupBreaks.fragment, if_neg hcounted, Strength.subtos_relax]

/-- A rule on the breaks of a group can be formulated if and only if its slots are an interval, and
then counts all of them but the least. -/
theorem formulates_block (hdemand : rule.rule.demand = .br2 breaks)
    (hids : ∀ slot ∈ breaks.slots, -2 ^ 63 ≤ slot ∧ slot < 2 ^ 63) :
    rule.FormulatesBlock breaks options := by
  have haccepted : rule.check options = .ok () ↔ IsInterval breaks.slots := by
    rw [check_block hdemand, ← breaks.isConsecutive_block]
    split <;> simp_all
  have hcard := breaks.countedSlots_eq_nil_iff
  refine ⟨haccepted, ?_, fun hsmall => haccepted.mpr (isInterval_of_card_le_one hsmall),
    fun _ _ _ _ => breaks.next_inRange hids, ⟨Nat.min_le_left _ _, breaks.countedSlots_eq_drop⟩,
    fun hskip => ?_, fun hskip htwo => ?_⟩
  · rw [check_block hdemand, ← breaks.isConsecutive_block]
    split <;> simp_all
  · rw [← hcard]
    constructor
    · intro hnone
      by_contra hcounted
      have hsubtos := subtos_block hdemand hskip hcounted
      rw [hnone] at hsubtos
      exact nomatch hsubtos
    · intro hcounted
      rw [fragment_block hdemand hskip, GroupBreaks.fragment, if_pos hcounted]
  · have hcounted : breaks.countedSlots ≠ [] := fun hnone => not_le.mpr (hcard.mp hnone) htwo
    have hslots : breaks.slots ≠ [] := fun hnone => by simp [hnone] at htwo
    obtain ⟨least, hleast⟩ := breaks.exists_isLeast hslots
    refine ⟨least, _, _, hleast, subtos_block hdemand hskip hcounted, fun env => ?_⟩
    rw [← breaks.toFinset_countedSlots_of_isLeast hleast]
    exact SetTerm.lists_pairs (SetTerm.lists_ids env _) (SetTerm.lists_ids env _)

/-- A soft rule on the last two slots that an id can name, out of order and one of them twice. -/
def lastSlots : Numbered :=
  ⟨⟨.soft 5, .br2 ⟨1, [0, 1],
    [9223372036854775807, 9223372036854775806, 9223372036854775807]⟩⟩, 1, 1⟩

/-- Only the last slot counts, and no sum goes past it. -/
theorem formulates_block_lastSlots : lastSlots.check {} = .ok () ∧ ∃ domain violation,
    (lastSlots.fragment {}).subtos = [⟨"br2_1", [],
      [⟨.sumOver (.over ["t", "s"] domain) (breakOn .both), .le, atMost 1 violation⟩]⟩] ∧
    ∀ env, domain.Lists env Tuple.two {(0, 9223372036854775807), (1, 9223372036854775807)} := by
  have hblock : lastSlots.FormulatesBlock _ {} := formulates_block rfl (by decide)
  obtain ⟨least, domain, violation, hleast, hsubtos, hlists⟩ := hblock.row rfl (by decide)
  obtain rfl : least = 9223372036854775806 :=
    hleast.unique ⟨by simp, fun slot hslot => by simp at hslot; omega⟩
  exact ⟨hblock.accepted.mpr ⟨9223372036854775806, 9223372036854775807, by decide⟩,
    domain, violation, hsubtos, hlists⟩

end Numbered

end RoundRobin
