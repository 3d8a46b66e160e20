import RoundRobin.Proofs.Naming.Program

/-! The arrays of violations that the soft rules of a kind share. The frame declares an array with a
place for each of them, and each gives way at its own place: the first rule at the first place, the
second at the second. -/

namespace RoundRobin

open Zimpl

/-- The arrays of a kind: the second is for meetings that fall short. -/
def Kind.arrays (kind : Kind) : List String :=
  (kind.stem ++ "_viol") :: if kind = .ga1 then ["ga1_min_viol"] else []

theorem Kind.exists_of_mem_arrays {kind : Kind} {name : String} (h : name ∈ kind.arrays) :
    ∃ rest, name = kind.stem ++ rest := by
  rcases List.mem_cons.mp h with rfl | h
  · exact ⟨"_viol", rfl⟩
  · split at h
    · rename_i hga1
      obtain rfl := List.mem_singleton.mp h
      exact ⟨"_min_viol", by rw [hga1]; rfl⟩
    · cases h

/-- What the soft rules of a kind add, in order. -/
def softParts (kind : Kind) (parts : List Part) : List Part :=
  parts.filter fun part => part.rule.kind = kind ∧ part.rule.strength.isSoft

/-- The soft rules of a kind, in order. -/
def Tournament.softRules (t : Tournament) (kind : Kind) : List Numbered :=
  t.numbered.filter fun rule => rule.rule.kind = kind ∧ rule.rule.strength.isSoft

/-- The array by which a row of a rule gives way. -/
def Rule.arrayOf (options : Options) (rule : Rule) (relation : Relation) : String :=
  if rule.kind = .ga1 ∧ options.minPenalty = .separate ∧ relation = .ge then "ga1_min_viol"
  else rule.kind.stem ++ "_viol"

theorem Rule.exists_of_isSoft {rule : Rule} (h : rule.strength.isSoft = true) :
    ∃ penalty, rule.strength = .soft penalty := by
  cases hstrength : rule.strength with
  | hard => simp [hstrength, Strength.isSoft] at h
  | soft penalty => exact ⟨penalty, rfl⟩

section Rules

variable {t : Tournament} {options : Options} {kind : Kind}

theorem Tournament.mem_softRules {rule : Numbered} : rule ∈ t.softRules kind ↔
    rule ∈ t.numbered ∧ rule.rule.kind = kind ∧ rule.rule.strength.isSoft = true := by
  rw [softRules, List.mem_filter, decide_eq_true_iff]

theorem Tournament.softParts_numberedParts (t : Tournament) (options : Options) (kind : Kind) :
    softParts kind (t.numberedParts options) =
      (t.softRules kind).map (Numbered.part options) := by
  rw [softParts, numberedParts, List.filter_map]
  rfl

theorem Tournament.map_softPlace (t : Tournament) (kind : Kind) :
    (t.softRules kind).map Numbered.softPlace = List.range' 1 (t.softCount kind) := by
  have hplaces := Numbered.map_softPlace_allBehind kind [] t.rules
  rwa [← t.softCount_eq] at hplaces

theorem Tournament.length_softRules (t : Tournament) (kind : Kind) :
    (t.softRules kind).length = t.softCount kind := by
  have hlength := congrArg List.length (t.map_softPlace kind)
  rwa [List.length_map, List.length_range'] at hlength

/-- The places are taken in the order of the rules. -/
theorem Tournament.softPlace_of_getElem? {j : Nat} {rule : Numbered}
    (h : (t.softRules kind)[j]? = some rule) : rule.softPlace = j + 1 := by
  obtain ⟨hj, rfl⟩ := List.getElem?_eq_some_iff.mp h
  rw [← List.getElem_map Numbered.softPlace (h := by rwa [List.length_map])]
  simp only [t.map_softPlace, List.getElem_range']
  omega

namespace Numbered

variable {rule : Numbered}

theorem violations_counted (bound : MeetingBound) : bound.counted.violations = [] := by
  simp [MeetingBound.counted, List.flatMap_map]

/-- A soft rule of a kind that shares gives way at its place of an array of the kind. -/
theorem violations_of_shared (hkind : rule.rule.kind ∈ [Kind.ca1, .ca2, .ga1])
    (hsoft : options.soft = true) (hstrength : rule.rule.strength.isSoft = true) {block : Subto}
    (hblock : block ∈ (rule.fragment options).subtos) {row : Row} (hrow : row ∈ block.rows) :
    row.violations = [(rule.rule.arrayOf options row.relation, [.int rule.softPlace])] := by
  have hskip : rule.isSkipped options = false := by simp [isSkipped, Rule.isSkipped, hsoft]
  obtain ⟨penalty, hpenalty⟩ := Rule.exists_of_isSoft hstrength
  cases hdemand : rule.rule.demand with
  | ca1 cap | ca2 cap =>
    obtain ⟨reference, hreference, hviolations⟩ :=
      (charges_of_soft hsoft hpenalty).rows block hblock row hrow
    rw [charged, hdemand] at hreference
    obtain rfl := List.mem_singleton.mp hreference
    rw [hviolations, Rule.arrayOf, Rule.kind, hdemand]
    rfl
  | ga1 bound =>
    have habove : isViolation "ga1_viol" = true := by decide
    have hbelow : isViolation "ga1_min_viol" = true := by decide
    have hga1 : rule.rule.kind = .ga1 := congrArg Demand.kind hdemand
    rw [fragment_of_not_skipped hskip, hdemand, hpenalty] at hblock
    dsimp only at hblock
    rw [subtos_meetingBound] at hblock
    rw [Rule.arrayOf, hga1]
    rcases List.mem_cons.mp hblock with rfl | hblock
    · obtain rfl := List.mem_singleton.mp hrow
      simp [Row.violations, violations_counted, Strength.inRow?, violationsIn, Violation.member,
        habove, Kind.stem]
    · split at hblock
      · cases hblock
      · obtain rfl := List.mem_singleton.mp hblock
        obtain rfl := List.mem_singleton.mp hrow
        cases options.minPenalty <;>
          simp [Row.violations, violations_counted, Strength.inRow?, violationsIn,
            Violation.member, MinPenalty.violation, habove, hbelow, Kind.stem]
  | _ => exact absurd hkind (by simp [Rule.kind, hdemand, Demand.kind])

/-- A rule that refers to an array of a kind is a soft rule of the kind, and refers to its place. -/
theorem of_mem_arrays (hkind : kind ∈ [Kind.ca1, .ca2, .ga1]) {reference : Reference}
    (h : reference ∈ rule.charged options) (harray : reference.1 ∈ kind.arrays) :
    rule.rule.kind = kind ∧ reference.2 = [.int rule.softPlace] := by
  obtain ⟨⟨rest, hname⟩, hplace⟩ := mem_charged h
  obtain ⟨rest', hname'⟩ := Kind.exists_of_mem_arrays harray
  have hsame : rule.rule.kind = kind := by
    by_contra hne
    exact (Kind.apart_stem hne).append_ne (hname.symm.trans hname')
  rw [if_pos (hsame ▸ hkind)] at hplace
  exact ⟨hsame, hplace⟩

end Numbered

end Rules

namespace Tournament

variable {t : Tournament} {options : Options} {kind : Kind}

/-- The names of a kind that shares are declared for its soft rules alone. -/
theorem notMem_entities_of_softCount (hkind : kind ∈ [Kind.ca1, .ca2, .ga1])
    (hnone : t.softCount kind = 0) {name : String} (hname : name ∈ kind.tag :: kind.arrays) :
    name ∉ (t.entities options).map Prod.fst := by
  have hnames : ∀ kind ∈ [Kind.ca1, .ca2, .ga1], ∀ name ∈ kind.tag :: kind.arrays,
      name ∈ Frame.fixedNames ∧ name ∉ Frame.resourceEntities.map Prod.fst ∧
      name ∉ ["x", "bh", "ba"] ∧ name ∉ ["hg"] ∧
      ∀ other ∈ [Kind.ca1, .ca2, .ga1], other ≠ kind → name ∉ other.tag :: other.arrays := by
    decide
  obtain ⟨hfixed, hresource, hgame, hbalance, hkinds⟩ := hnames kind hkind name hname
  intro h
  have h := mem_fixedEntities hfixed h
  simp only [Frame.fixedEntities, List.map_append, List.mem_append] at h
  rcases h with ((h | h) | h) | h
  · exact hresource h
  · rw [Frame.sharedEntities] at h
    split at h
    · rw [List.map_flatMap] at h
      obtain ⟨other, hmem, h⟩ := List.mem_flatMap.mp h
      by_cases heq : other = kind
      · rw [heq, Frame.arrayEntities, if_pos hnone] at h
        cases h
      · exact hkinds other hmem heq ((Frame.sublist_arrayEntities t options other).subset h)
    · cases h
  · exact hgame ((Frame.sublist_gameEntities t).subset h)
  · exact hbalance ((Frame.sublist_balanceEntities t).subset h)

/-- What the frame declares for a kind stands in the program. -/
theorem mem_program_of_sharedArray (hkind : kind ∈ [Kind.ca1, .ca2, .ga1])
    (hsoft : options.soft = true) {statement : Statement}
    (h : statement ∈ Frame.sharedArray t options kind) : statement ∈ t.program options := by
  have hshared : statement ∈ Frame.sharedArrays t options := by
    have hmem : statement ∈ [Kind.ca1, .ca2, .ga1].flatMap (Frame.sharedArray t options) :=
      List.mem_flatMap.mpr ⟨kind, hkind, h⟩
    have hne : ([Kind.ca1, .ca2, .ga1].flatMap (Frame.sharedArray t options)).isEmpty = false := by
      rw [List.isEmpty_eq_false_iff]
      exact List.ne_nil_of_mem hmem
    unfold Frame.sharedArrays
    dsimp only
    rw [if_neg (by rw [hsoft, hne]; decide)]
    exact List.mem_cons_of_mem _ hmem
  simp only [program, Frame.statements, List.mem_append]
  tauto

/-- The arrays that the soft rules of a kind share, in a program made of some parts. -/
structure SharesArrays (t : Tournament) (options : Options) (kind : Kind) (program : Program)
    (parts : List Part) (counters : Counters) : Prop where
  made : program = t.assemble options parts
  /-- Without soft rules of the kind neither its places nor its arrays are declared, and no
  constraint mentions them. -/
  absent : t.softCount kind = 0 → ∀ name ∈ kind.tag :: kind.arrays,
    name ∉ program.declaredNames ∧ ∀ block ∈ program.subtos, .used name ∉ block.mentions
  /-- Otherwise there are as many places as soft rules, and the arrays have a member for each. -/
  declared : t.softCount kind ≠ 0 →
    .set kind.tag (.range 1 (.int (t.softCount kind))) ∈ program ∧
    .var (.nonnegative (kind.stem ++ "_viol") (.over kind.tag)) ∈ program ∧
    (kind = .ga1 → options.minPenalty = .separate →
      .var (.nonnegative "ga1_min_viol" (.over kind.tag)) ∈ program)
  /-- The rules have taken as many places in the end as there are. -/
  taken : counters.members.count kind = t.softCount kind
  /-- There is a soft rule for each place. -/
  rules : (softParts kind parts).length = t.softCount kind
  /-- All that the rows of the soft rule at a place give way by is the place of one array. -/
  places : ∀ j part, (softParts kind parts)[j]? = some part →
    part.fragment.subtos ≠ [] ∧ ∀ block ∈ part.fragment.subtos,
      block ∈ program.subtos ∧ block.rows ≠ [] ∧ ∀ row ∈ block.rows,
        row.violations = [(part.rule.arrayOf options row.relation, [.int (j + 1 : Nat)])]
  /-- The places that constraints give way by are those of the soft rules. -/
  exactly : ∀ subscripts, (∃ block ∈ program.subtos,
    (kind.stem ++ "_viol", subscripts) ∈ block.violations) ↔
      ∃ j : Nat, 1 ≤ j ∧ j ≤ t.softCount kind ∧ subscripts = [.int j]
  /-- No two rules refer to the same place, in one array or in both. -/
  apart : ∀ (i j : Nat) (a b : Part), parts[i]? = some a → parts[j]? = some b →
    ∀ first ∈ kind.arrays, ∀ second ∈ kind.arrays, ∀ subscripts,
      (∃ block ∈ a.fragment.subtos, (first, subscripts) ∈ block.violations) →
      (∃ block ∈ b.fragment.subtos, (second, subscripts) ∈ block.violations) → i = j

/-- All that constraints give way by is what soft rules give way by. -/
theorem exists_charged_of_mem_violations (hsoft : options.soft = true) {block : Subto}
    (hblock : block ∈ Program.subtos (t.program options)) {reference : Reference}
    (h : reference ∈ block.violations) : ∃ rule ∈ t.numbered,
      rule.rule.strength.isSoft = true ∧ reference ∈ rule.charged options := by
  rw [t.subtos_program, List.mem_append, List.mem_append] at hblock
  rcases hblock with (hframe | hrule) | hgoal
  · rw [(Frame.plain_of_mem_subtos hframe).2] at h
    nomatch h
  · obtain ⟨rule, hmem, hblock⟩ := List.mem_flatMap.mp hrule
    exact ⟨rule, hmem, Numbered.mem_charged_of_mem_violations hsoft hblock h⟩
  · obtain ⟨-, cutoff, -, rfl⟩ := exists_cutoff_of_mem_subtos hgoal
    have hcharges : reference ∈ (cutoff.bounded (t.charges options)).flatMap Linear.violations := by
      simpa [Subto.violations, Row.violations] using h
    obtain ⟨charge, hcharge, hreference⟩ := List.mem_flatMap.mp hcharges
    obtain ⟨rule, hmem, hcharge⟩ := List.mem_flatMap.mp (List.mem_of_mem_drop hcharge)
    have hrule : reference ∈ (rule.fragment options).charges.flatMap Linear.references :=
      List.mem_flatMap.mpr ⟨charge, hcharge, List.mem_of_mem_filter hreference⟩
    rw [rule.references_charges hsoft, List.mem_ite_nil_right] at hrule
    exact ⟨rule, hmem, hrule⟩

/-- A soft rule of a kind that shares gives way at its place of the array of the kind. -/
theorem exists_mem_violations (hkind : kind ∈ [Kind.ca1, .ca2, .ga1]) (hsoft : options.soft = true)
    {rule : Numbered} (hrule : rule ∈ t.softRules kind) : ∃ block ∈ (rule.fragment options).subtos,
      (kind.stem ++ "_viol", [.int rule.softPlace]) ∈ block.violations := by
  obtain ⟨-, rfl, hstrength⟩ := mem_softRules.mp hrule
  obtain ⟨penalty, hpenalty⟩ := Rule.exists_of_isSoft hstrength
  refine (Numbered.charges_of_soft hsoft hpenalty).used _ ?_
  rw [Numbered.charged]
  cases hdemand : rule.rule.demand with
  | ca1 cap | ca2 cap | ga1 bound =>
    rw [Rule.kind, hdemand]
    exact List.mem_cons_self
  | _ => exact absurd hkind (by simp [Rule.kind, hdemand, Demand.kind])

/-- A kind without soft rules is not mentioned. -/
theorem notMem_mentions_of_softCount (hkind : kind ∈ [Kind.ca1, .ca2, .ga1])
    (hnone : t.softCount kind = 0) {name : String} (hname : name ∈ kind.tag :: kind.arrays)
    {block : Subto} (hblock : block ∈ Program.subtos (t.program options)) :
    .used name ∉ block.mentions := by
  have hfree : ∀ kind ∈ [Kind.ca1, .ca2, .ga1], ∀ name ∈ kind.tag :: kind.arrays,
      name ∉ binders := by
    decide
  have hstatement : Statement.subto block ∈ t.program options := Program.mem_subtos.mp hblock
  intro hused
  rcases Program.covers_subto (t.declared?_program options) hstatement rfl hused with h | h
  · exact notMem_entities_of_softCount hkind hnone hname h
  · have hbound : .bound name ∈ Program.mentions (t.program options) :=
      List.mem_flatMap.mpr ⟨_, hstatement, h⟩
    exact hfree kind hkind name hname ((t.plain_program options).mem_binders hbound)

theorem mem_subtos_of_rule {rule : Numbered} (hmem : rule ∈ t.numbered) {block : Subto}
    (hblock : block ∈ (rule.fragment options).subtos) :
    block ∈ Program.subtos (t.program options) := by
  rw [t.subtos_program]
  exact List.mem_append_left _ (List.mem_append_right _ (List.mem_flatMap.mpr ⟨rule, hmem, hblock⟩))

/-- The places that constraints give way by are those of the soft rules. -/
theorem exists_mem_violations_iff (hkind : kind ∈ [Kind.ca1, .ca2, .ga1])
    (hsoft : options.soft = true)
    (subscripts : List Arith) : (∃ block ∈ Program.subtos (t.program options),
      (kind.stem ++ "_viol", subscripts) ∈ block.violations) ↔
        ∃ j : Nat, 1 ≤ j ∧ j ≤ t.softCount kind ∧ subscripts = [.int j] := by
  constructor
  · rintro ⟨block, hblock, hreference⟩
    obtain ⟨rule, hmem, hstrength, hcharged⟩ :=
      exists_charged_of_mem_violations hsoft hblock hreference
    obtain ⟨rfl, hplace⟩ := Numbered.of_mem_arrays hkind hcharged (.head _)
    obtain ⟨hfirst, hlast⟩ := softPlace_le hmem hstrength
    exact ⟨rule.softPlace, hfirst, hlast, hplace⟩
  · rintro ⟨j, hfirst, hlast, rfl⟩
    have hj : j - 1 < (t.softRules kind).length := by
      rw [t.length_softRules]
      omega
    have hrule : (t.softRules kind)[j - 1] ∈ t.softRules kind := List.getElem_mem hj
    have hplace := softPlace_of_getElem? (List.getElem?_eq_getElem hj)
    obtain ⟨block, hblock, hreference⟩ := exists_mem_violations hkind hsoft hrule
    rw [hplace, Nat.sub_add_cancel hfirst] at hreference
    exact ⟨block, mem_subtos_of_rule (mem_softRules.mp hrule).1 hblock, hreference⟩

/-- Two rules that refer to one place of the arrays of a kind are the same. -/
theorem eq_of_mem_violations (hkind : kind ∈ [Kind.ca1, .ca2, .ga1]) (hsoft : options.soft = true)
    {a b : Numbered} (ha : a ∈ t.numbered) (hb : b ∈ t.numbered) {first second : String}
    (hfirst : first ∈ kind.arrays) (hsecond : second ∈ kind.arrays) {subscripts : List Arith}
    (h : ∃ block ∈ (a.fragment options).subtos, (first, subscripts) ∈ block.violations)
    (h' : ∃ block ∈ (b.fragment options).subtos, (second, subscripts) ∈ block.violations) :
    a = b := by
  obtain ⟨block, hblock, hreference⟩ := h
  obtain ⟨block', hblock', hreference'⟩ := h'
  obtain ⟨hstrength, hcharged⟩ := Numbered.mem_charged_of_mem_violations hsoft hblock hreference
  obtain ⟨hstrength', hcharged'⟩ := Numbered.mem_charged_of_mem_violations hsoft hblock' hreference'
  obtain ⟨ha', hplace⟩ := Numbered.of_mem_arrays hkind hcharged hfirst
  obtain ⟨hb', hplace'⟩ := Numbered.of_mem_arrays hkind hcharged' hsecond
  have hsame : Arith.int a.softPlace = Arith.int b.softPlace :=
    (List.cons.inj (hplace.symm.trans hplace')).1
  by_contra hab
  have hne := (number_ne ha hb hab hstrength hstrength' (ha'.trans hb'.symm)).2
  exact hne (Int.ofNat_inj.mp (Arith.int.inj hsame))

/-- The soft rules of a kind that shares give way at one place of its arrays each: those that they
take while the rules are formulated one after another, of as many as are declared before. -/
theorem sharesArrays {program : Program} (h : t.formulate options = .ok program)
    (hsoft : options.soft = true) (hkind : kind ∈ [Kind.ca1, .ca2, .ga1]) :
    ∃ parts counters, t.parts options = .ok (parts, counters) ∧
      t.SharesArrays options kind program parts counters := by
  obtain ⟨rfl, hcheck⟩ := of_formulate h
  obtain ⟨counters, hcounters, hparts⟩ := parts_eq_ok hcheck
  refine ⟨_, counters, hparts, (t.assemble_numberedParts options).symm,
    fun hnone name hname => ⟨?_, ?_⟩, fun hsome => ⟨?_, ?_, fun hga1 hseparate => ?_⟩, ?_, ?_,
    fun j part hpart => ?_, exists_mem_violations_iff hkind hsoft, ?_⟩
  · rw [t.declaredNames_program]
    exact notMem_entities_of_softCount hkind hnone hname
  · exact fun block hblock => notMem_mentions_of_softCount hkind hnone hname hblock
  · refine mem_program_of_sharedArray hkind hsoft ?_
    simp [Frame.sharedArray, hsome]
  · refine mem_program_of_sharedArray hkind hsoft ?_
    simp [Frame.sharedArray, hsome]
  · subst hga1
    refine mem_program_of_sharedArray hkind hsoft ?_
    simp [Frame.sharedArray, hsome, hseparate, Kind.tag]
  · rw [hcounters.members, if_pos ⟨hsoft, decide_eq_true hkind⟩, t.softCount_eq]
  · rw [softParts_numberedParts, List.length_map, t.length_softRules]
  · rw [softParts_numberedParts, List.getElem?_map, Option.map_eq_some_iff] at hpart
    obtain ⟨rule, hrule, rfl⟩ := hpart
    have hmem := List.mem_of_getElem? hrule
    obtain ⟨first, hfirst, -⟩ := exists_mem_violations hkind hsoft hmem
    obtain ⟨hnumbered, rfl, hstrength⟩ := mem_softRules.mp hmem
    obtain ⟨penalty, hpenalty⟩ := Rule.exists_of_isSoft hstrength
    refine ⟨List.ne_nil_of_mem hfirst, fun block hblock => ⟨mem_subtos_of_rule hnumbered hblock,
      (Numbered.charges_of_soft hsoft hpenalty).nonempty block hblock, fun row hrow => ?_⟩⟩
    rw [Numbered.violations_of_shared hkind hsoft hstrength hblock hrow,
      softPlace_of_getElem? hrule]
    rfl
  · intro i j a b hi hj first hfirst second hsecond subscripts hblock hblock'
    rw [numberedParts, List.getElem?_map, Option.map_eq_some_iff] at hi hj
    obtain ⟨rule, hrule, rfl⟩ := hi
    obtain ⟨rule', hrule', rfl⟩ := hj
    have hsame : rule = rule' := eq_of_mem_violations hkind hsoft (List.mem_of_getElem? hrule)
      (List.mem_of_getElem? hrule') hfirst hsecond hblock hblock'
    obtain ⟨hi, -⟩ := List.getElem?_eq_some_iff.mp hrule
    exact (List.getElem?_inj hi (Numbered.nodup_numbered t)).mp (hrule.trans (hsame ▸ hrule'.symm))

end Tournament

/-- Soft rules of two kinds that share arrays, in turn and with a hard rule between them. -/
def inTurnTournament : Tournament where
  name := none
  teams := [0, 1]
  slots := [0, 1]
  phased := false
  rules := [⟨.soft 3, .ga1 ⟨1, 1, [0], [⟨0, 1, Int.zero_ne_one⟩]⟩⟩,
    ⟨.soft 2, .ca1 ⟨0, 0, .home, [0], [0]⟩⟩,
    ⟨.hard, .ga1 ⟨1, 1, [0, 1], [⟨0, 1, Int.zero_ne_one⟩]⟩⟩,
    ⟨.soft 1, .ga1 ⟨0, 0, [1], [⟨1, 0, Int.one_ne_zero⟩]⟩⟩]

/-- Two places for the rules on meetings, one for the rule on home games, and none for the third
kind. -/
theorem sharesArrays_inTurn :
    let options : Options := { minPenalty := .separate }
    let program := inTurnTournament.program options
    (∃ parts counters, inTurnTournament.parts options = .ok (parts, counters) ∧
      inTurnTournament.SharesArrays options .ga1 program parts counters ∧
      (softParts .ga1 parts).map (fun part => part.fragment.subtos.map (·.name)) =
        [["ga1_1", "ga1_2"], ["ga1_5"]]) ∧
    (∃ parts counters, inTurnTournament.parts options = .ok (parts, counters) ∧
      inTurnTournament.SharesArrays options .ca1 program parts counters) ∧
    ∃ parts counters, inTurnTournament.parts options = .ok (parts, counters) ∧
      inTurnTournament.SharesArrays options .ca2 program parts counters := by
  intro options program
  have hprogram : inTurnTournament.formulate options = .ok program := rfl
  obtain ⟨parts, counters, hparts, hga1⟩ :=
    Tournament.sharesArrays hprogram rfl (.tail _ (.tail _ (.head _)))
  refine ⟨⟨parts, counters, hparts, hga1, ?_⟩, Tournament.sharesArrays hprogram rfl (.head _),
    Tournament.sharesArrays hprogram rfl (.tail _ (.head _))⟩
  obtain ⟨rfl, rfl⟩ := Prod.mk.inj (Except.ok.inj hparts)
  rfl

example : [Kind.ca1, .ca2, .ga1].map inTurnTournament.softCount = [1, 0, 2] := by decide

end RoundRobin
