import RoundRobin.Proofs.Meaning.Stage
import RoundRobin.Proofs.Scoping.Rules

/-! Formulated tournaments are well scoped. The names of a program are the fixed ones of its frame,
those of its odd families, and those that its rules declare for themselves; no two of them are the
same. -/

namespace RoundRobin

open Zimpl

namespace Frame

variable {t : Tournament} {options : Options}

/-- The names that frames declare, but for those of odd families. -/
def fixedNames : List String :=
  ["teams", "slots", "T", "S", "S0", "S1", "S2", "SZ", "M", "MR", "matches_per_slot", "CA1",
    "ca1_viol", "CA2", "ca2_viol", "GA1", "ga1_viol", "ga1_min_viol", "x", "bh", "ba", "hg"]

theorem sublist_arrayEntities (t : Tournament) (options : Options) (kind : Kind) :
    ((arrayEntities t options kind).map Prod.fst).Sublist
      (kind.tag :: (kind.stem ++ "_viol") :: if kind = .ga1 then ["ga1_min_viol"] else []) := by
  unfold arrayEntities
  split
  · exact List.nil_sublist _
  · refine List.Sublist.cons_cons _ (List.Sublist.cons_cons _ ?_)
    by_cases hkind : kind = .ga1
    · rw [if_pos hkind]
      split
      · exact List.Sublist.refl _
      · exact List.nil_sublist _
    · rw [if_neg (fun h => hkind h.1)]
      exact List.nil_sublist _

theorem sublist_sharedEntities (t : Tournament) (options : Options) :
    ((sharedEntities t options).map Prod.fst).Sublist
      ["CA1", "ca1_viol", "CA2", "ca2_viol", "GA1", "ga1_viol", "ga1_min_viol"] := by
  unfold sharedEntities
  split
  · rw [List.map_flatMap]
    exact (sublist_arrayEntities t options .ca1).append
      ((sublist_arrayEntities t options .ca2).append
      ((sublist_arrayEntities t options .ga1).append (List.nil_sublist [])))
  · exact List.nil_sublist _

/-- What a frame declares but for its odd families. -/
def fixedEntities (t : Tournament) (options : Options) : List (String × Entity) :=
  resourceEntities ++ sharedEntities t options ++ gameEntities t ++ balanceEntities t

theorem sublist_gameEntities (t : Tournament) :
    ((gameEntities t).map Prod.fst).Sublist ["x", "bh", "ba"] := by
  unfold gameEntities
  split <;> decide

theorem sublist_balanceEntities (t : Tournament) :
    ((balanceEntities t).map Prod.fst).Sublist ["hg"] := by
  unfold balanceEntities
  split <;> decide

theorem sublist_fixedEntities (t : Tournament) (options : Options) :
    ((fixedEntities t options).map Prod.fst).Sublist fixedNames := by
  simp only [fixedEntities, List.map_append]
  exact (((List.Sublist.refl (resourceEntities.map Prod.fst)).append
    (sublist_sharedEntities t options)).append (sublist_gameEntities t)).append
      (sublist_balanceEntities t)

theorem perm_entities (t : Tournament) (options : Options) :
    (entities t options).Perm
      (fixedEntities t options ++ (oddFamilies t options).flatMap familyEntities) := by
  simp only [entities, fixedEntities, List.append_assoc]
  refine List.Perm.append_left _ (List.Perm.append_left _ (List.Perm.append_left _ ?_))
  exact List.perm_append_comm

theorem map_familyEntities (families : List (String × Nat)) :
    (families.flatMap familyEntities).map Prod.fst = familyNames families := by
  rw [List.map_flatMap]
  rfl

theorem nodup_familyNames {families : List (String × Nat)} (h : (families.map (·.2)).Nodup) :
    (familyNames families).Nodup := by
  induction families with
  | nil => exact List.nodup_nil
  | cons family families ih =>
    obtain ⟨hsize, hrest⟩ := List.nodup_cons.mp h
    obtain ⟨hsets, hindices⟩ := notMem_familyNames hsize
    have hKI : Apart "K" "I" := by decide
    have hset : "K" ++ toString family.2 ∉ ("I" ++ toString family.2) :: familyNames families :=
      List.not_mem_cons_of_ne_of_not_mem hKI.append_ne hsets
    exact List.nodup_cons.mpr ⟨hset, List.nodup_cons.mpr ⟨hindices, ih hrest⟩⟩

theorem mem_names_of_mem_entities {name : String} (h : name ∈ (entities t options).map Prod.fst) :
    name ∈ fixedNames ∨ name ∈ familyNames (oddFamilies t options) := by
  rw [((perm_entities t options).map Prod.fst).mem_iff, List.map_append, List.mem_append,
    map_familyEntities] at h
  exact h.imp_left fun h => (sublist_fixedEntities t options).subset h

theorem nodup_entities (t : Tournament) (options : Options) :
    ((entities t options).map Prod.fst).Nodup := by
  have hapart : ∀ name ∈ fixedNames, Apart name "K" ∧ Apart name "I" := by decide
  rw [((perm_entities t options).map Prod.fst).nodup_iff, List.map_append, map_familyEntities]
  refine List.Nodup.append
    ((show fixedNames.Nodup by decide).sublist (sublist_fixedEntities t options))
    (nodup_familyNames (nodup_oddFamilies t options)) fun name hfixed hfamily => ?_
  obtain ⟨hK, hI⟩ := hapart name ((sublist_fixedEntities t options).subset hfixed)
  exact notMem_familyNames_of_apart hK hI hfamily

end Frame

namespace Numbered

variable {t : Tournament} {options : Options} {context : Context} {rule : Numbered}

/-- The violation of the rule's own, which only a soft rule declares. -/
def violationEntities (rule : Numbered) (dim : Nat) : List (String × Entity) :=
  if rule.rule.strength.isSoft then [(rule.violationName, .variable dim)] else []

/-- What a rule declares. -/
def entities (options : Options) (rule : Numbered) : List (String × Entity) :=
  if rule.isSkipped options then []
  else match rule.rule.demand with
    | .ca1 _ | .ca2 _ | .ga1 _ => []
    | .ca3 _ => rule.violationEntities 1
    | .ca4 cap => rule.violationEntities (match cap.scope with | .global => 0 | .every => 1)
    | .se1 _ => rule.violationEntities 2
    | .br1 _ | .br2 _ => if rule.isVoid then [] else rule.violationEntities 0
    | .fa2 _ => (rule.pairSet, .set 2) :: rule.violationEntities 2

theorem sublist_violationEntities (rule : Numbered) (dim : Nat) :
    ((rule.violationEntities dim).map Prod.fst).Sublist [rule.violationName] := by
  unfold violationEntities
  split
  · exact List.Sublist.refl _
  · exact List.nil_sublist _

theorem sublist_entities (options : Options) (rule : Numbered) :
    ((rule.entities options).map Prod.fst).Sublist rule.ownNames := by
  have hown : ∀ dim, ((rule.violationEntities dim).map Prod.fst).Sublist
      [rule.setName, rule.violationName] := fun dim =>
    (rule.sublist_violationEntities dim).trans (List.sublist_cons_self _ _)
  unfold entities ownNames
  split
  · exact List.nil_sublist _
  · cases hdemand : rule.rule.demand with
    | ca1 cap | ca2 cap | ga1 bound => exact List.nil_sublist _
    | ca3 cap | ca4 cap | se1 separation => exact hown _
    | br1 breaks | br2 breaks =>
      dsimp only
      split
      · exact List.nil_sublist _
      · exact hown 0
    | fa2 balance =>
      rw [setName_eq_pairSet (congrArg Demand.kind hdemand)]
      exact (rule.sublist_violationEntities 2).cons_cons _

theorem nodup_ownNames (rule : Numbered) : rule.ownNames.Nodup := by
  have hpair : [rule.setName, rule.violationName].Nodup := by
    simpa using setName_ne_violationName rule rule
  unfold ownNames
  split
  · exact List.nodup_nil
  · exact List.nodup_nil
  · exact List.nodup_nil
  · exact hpair

/-- No name that a rule declares is one that frames declare, but for those of odd families. -/
theorem notMem_ownNames_of_fixed {name : String} (h : name ∈ Frame.fixedNames) (rule : Numbered) :
    name ∉ rule.ownNames := by
  have hheads : ∀ head ∈ [Kind.ca3, .ca4, .se1, .br1, .br2, .fa2].flatMap
      fun kind => [kind.tag, kind.stem], ∀ name ∈ Frame.fixedNames,
      ¬ head.toList <+: name.toList := by
    decide
  intro hown
  obtain ⟨head, hhead, rest, rfl⟩ := append_of_mem_ownNames hown
  exact ne_append (hheads head hhead _ h) rfl

/-- No name that a rule declares is declared by a frame. -/
theorem notMem_ownNames_of_mem_frame {name : String}
    (h : name ∈ (Frame.entities t options).map Prod.fst) (rule : Numbered) :
    name ∉ rule.ownNames := by
  have hheads : ∀ head ∈ [Kind.ca3, .ca4, .se1, .br1, .br2, .fa2].flatMap
      fun kind => [kind.tag, kind.stem], Apart head "K" ∧ Apart head "I" := by
    decide
  rcases Frame.mem_names_of_mem_entities h with hname | hname
  · exact notMem_ownNames_of_fixed hname rule
  · intro hown
    obtain ⟨head, hhead, rest, rfl⟩ := append_of_mem_ownNames hown
    obtain ⟨hK, hI⟩ := hheads head hhead
    simp only [Frame.familyNames, List.mem_flatMap, List.mem_cons, List.not_mem_nil,
      or_false] at hname
    obtain ⟨family, -, heq | heq⟩ := hname
    · exact hK.append_ne heq
    · exact hI.append_ne heq

/-- No name of a program is declared twice. -/
theorem fresh_entities (t : Tournament) (options : Options) :
    Context.Fresh {} (Frame.entities t options ++ t.numbered.flatMap (entities options)) := by
  show ((Frame.entities t options ++ t.numbered.flatMap (entities options)).map Prod.fst).Nodup
  rw [List.map_append, List.map_flatMap]
  refine List.Nodup.append (Frame.nodup_entities t options)
    (List.nodup_flatMap.mpr ⟨fun rule _ => ?_, ?_⟩) fun name hframe hrule => ?_
  · exact rule.nodup_ownNames.sublist (rule.sublist_entities options)
  · refine (pairwise_distinct t).imp fun {a b} hdistinct name ha hb => ?_
    exact notMem_ownNames hdistinct ((a.sublist_entities options).subset ha)
      ((b.sublist_entities options).subset hb)
  · obtain ⟨rule, -, hrule⟩ := List.mem_flatMap.mp hrule
    exact notMem_ownNames_of_mem_frame hframe rule ((rule.sublist_entities options).subset hrule)

theorem declared?_relax {strength : Strength} {violation : Violation} {name : String} {dim : Nat}
    {subtos : Option Linear → List Subto}
    (h : Program.declared? context violation.declarations = some [(name, .variable dim)]) :
    Program.declared? context (strength.relax violation subtos).declarations =
      some (if strength.isSoft then [(name, .variable dim)] else []) := by
  cases strength with
  | hard => rfl
  | soft penalty => exact h

/-- What stands in front of the rows of a rule declares its names. -/
theorem declared?_declarations (hbase : context.Declares (Frame.baseEntities t))
    (hfresh : context.Fresh (rule.entities options)) :
    Program.declared? context (rule.fragment options).declarations =
      some (rule.entities options) := by
  unfold entities at hfresh ⊢
  cases hskip : rule.isSkipped options with
  | true =>
    rw [fragment, if_pos hskip]
    rfl
  | false =>
    have hS := Frame.entity?_slots hbase
    have hscalar : Program.declared? context (Violation.scalar rule.violationName).declarations =
        some [(rule.violationName, .variable 0)] := by
      simp [Program.declared?, Violation.scalar, VarDecl.nonnegative]
    rw [fragment_of_not_skipped hskip]
    rw [hskip, if_neg (by decide)] at hfresh
    rw [if_neg (by decide)]
    cases hdemand : rule.rule.demand with
    | ca1 cap | ca2 cap =>
      exact congrArg (Program.declared? context) (declarations_relax_member _ _ _ _)
    | ga1 bound => exact congrArg (Program.declared? context) (declarations_meetingBound _ _ _ _)
    | ca3 cap =>
      refine declared?_relax ?_
      simp [Program.declared?, Violation.array, VarDecl.nonnegative, hS]
    | ca4 cap =>
      dsimp only
      unfold GroupCap.fragment
      cases cap.scope with
      | global => exact declared?_relax hscalar
      | every =>
        refine declared?_relax ?_
        simp [Program.declared?, Violation.array, VarDecl.nonnegative]
    | se1 separation =>
      refine declared?_relax ?_
      simp [Program.declared?, Violation.array, VarDecl.nonnegative, pairsOf, times]
    | br1 breaks =>
      dsimp only
      unfold TeamBreaks.fragment isVoid
      rw [hdemand]
      by_cases hcounted : breaks.countedSlots = []
      · simp [hcounted, Program.declared?]
      · rw [if_neg hcounted, if_neg (by simpa using hcounted)]
        exact declared?_relax hscalar
    | br2 breaks =>
      dsimp only
      unfold GroupBreaks.fragment isVoid
      rw [hdemand]
      by_cases hcounted : breaks.countedSlots = []
      · simp [hcounted, Program.declared?]
      · rw [if_neg hcounted, if_neg (by simpa using hcounted)]
        exact declared?_relax hscalar
    | fa2 balance =>
      rw [hdemand] at hfresh
      have hset : (context.add [(rule.pairSet, .set 2)]).entity? rule.pairSet = some (.set 2) :=
        hfresh.head.declares _ (.head _)
      refine Program.declared?_cons ?_ (declared?_relax ?_)
      · simp [pairsOf, times, pairSet]
      · show Program.declared? _ [.var (.nonnegative rule.violationName (.over rule.pairSet))] = _
        simp [Program.declared?, VarDecl.nonnegative, hset]

/-- The violations that the rules of a kind share are declared where a rule refers to them. -/
theorem entity?_shared (hframe : context.Declares (Frame.entities t options))
    (hmem : rule ∈ t.numbered)
    {kind : Kind} (hkind : rule.rule.kind = kind) (hshared : kind ∈ [Kind.ca1, .ca2, .ga1])
    (hskip : rule.isSkipped options = false) (hsoft : rule.rule.strength.isSoft = true) :
    context.entity? (kind.stem ++ "_viol") = some (.variable 1) ∧
      (kind = .ga1 → options.minPenalty = .separate →
        context.entity? "ga1_min_viol" = some (.variable 1)) := by
  have hplace := Tournament.softPlace_le hmem hsoft
  rw [hkind] at hplace
  have hoptions : options.soft = true := by simpa [isSkipped, Rule.isSkipped, hsoft] using hskip
  have hsub : Frame.arrayEntities t options kind ⊆ Frame.entities t options := fun pair hpair => by
    have hpair : pair ∈ Frame.sharedEntities t options := by
      rw [Frame.sharedEntities, if_pos hoptions]
      exact List.mem_flatMap.mpr ⟨kind, hshared, hpair⟩
    simp [Frame.entities, hpair]
  have harray := hframe.mono hsub
  rw [Frame.arrayEntities, if_neg (by omega)] at harray
  refine ⟨harray.entity? (.tail _ (.head _)), fun hga1 hseparate => harray.entity? ?_⟩
  simp [hga1, hseparate]

/-- The rows and charges of a rule use what the frame and the rule itself declare. -/
theorem scoped_fragment (hframe : context.Declares (Frame.entities t options))
    (hown : context.Declares (rule.entities options)) (hmem : rule ∈ t.numbered) :
    (rule.fragment options).Scoped context := by
  have hbase : context.Declares (Frame.baseEntities t) := hframe.mono fun pair hpair => by
    rcases List.mem_append.mp hpair with hpair | hpair <;> simp [Frame.entities, hpair]
  unfold entities at hown
  cases hskip : rule.isSkipped options with
  | true =>
    rw [fragment, if_pos hskip]
    exact Fragment.scoped_empty context
  | false =>
    have hviolation : ∀ dim, context.Declares (rule.violationEntities dim) →
        rule.rule.strength.isSoft = true →
          context.entity? rule.violationName = some (.variable dim) :=
      fun dim h hsoft => h.entity? (by simp [violationEntities, hsoft])
    rw [fragment_of_not_skipped hskip]
    rw [hskip, if_neg (by decide)] at hown
    cases hdemand : rule.rule.demand with
    | ca1 cap =>
      have hkind : rule.rule.kind = .ca1 := congrArg Demand.kind hdemand
      exact cap.scoped_fragment hbase fun hsoft =>
        (entity?_shared hframe hmem hkind (by decide) hskip hsoft).1
    | ca2 cap =>
      have hkind : rule.rule.kind = .ca2 := congrArg Demand.kind hdemand
      exact cap.scoped_fragment hbase fun hsoft =>
        (entity?_shared hframe hmem hkind (by decide) hskip hsoft).1
    | ga1 bound =>
      have hkind : rule.rule.kind = .ga1 := congrArg Demand.kind hdemand
      have hshared := entity?_shared hframe hmem hkind (by decide) hskip
      exact bound.scoped_fragment hbase options (fun hsoft => (hshared hsoft).1)
        fun hsoft => (hshared hsoft).2 rfl
    | ca3 cap =>
      rw [hdemand] at hown
      exact cap.scoped_fragment hbase (hviolation 1 hown)
    | ca4 cap =>
      rw [hdemand] at hown
      exact cap.scoped_fragment hbase (hviolation _ hown)
    | se1 separation =>
      rw [hdemand] at hown
      exact separation.scoped_fragment hbase (hviolation 2 hown)
    | br1 breaks =>
      rw [hdemand] at hown
      refine breaks.scoped_fragment hbase
        (hasBreaks_of_mem hmem (.inl (congrArg Demand.kind hdemand)))
        fun hsoft hcounted => hviolation 0 ?_ hsoft
      rwa [isVoid, hdemand, if_neg (by simpa using hcounted)] at hown
    | br2 breaks =>
      rw [hdemand] at hown
      refine breaks.scoped_fragment hbase
        (hasBreaks_of_mem hmem (.inr (congrArg Demand.kind hdemand)))
        fun hsoft hcounted => hviolation 0 ?_ hsoft
      rwa [isVoid, hdemand, if_neg (by simpa using hcounted)] at hown
    | fa2 balance =>
      rw [hdemand] at hown
      have hhg : context.entity? "hg" = some (.variable 2) := hframe.entity? <| by
        simp [Frame.entities, Frame.balanceEntities,
          hasBalance_of_mem hmem (congrArg Demand.kind hdemand)]
      exact balance.scoped_fragment hhg (hown.entity? (.head _))
        (hviolation 2 (hown.mono (List.subset_cons_self _ _)))

theorem declared?_statements (hframe : context.Declares (Frame.entities t options))
    (hfresh : context.Fresh (rule.entities options)) (hmem : rule ∈ t.numbered) :
    Program.declared? context (rule.statements options) = some (rule.entities options) := by
  have hbase : context.Declares (Frame.baseEntities t) := hframe.mono fun pair hpair => by
    rcases List.mem_append.mp hpair with hpair | hpair <;> simp [Frame.entities, hpair]
  refine Program.declared?_quiet rfl (Program.declared?_quiet rfl (Program.declared?_append_quiet
    (declared?_declarations hbase hfresh)
    (Program.declared?_silent fun statement hstatement => ?_)))
  obtain ⟨block, hblock, rfl⟩ := List.mem_map.mp hstatement
  exact if_pos ((scoped_fragment (hframe.add _) hfresh.declares hmem).rows block hblock)

end Numbered

theorem declared?_goal {options : Options} {charges : List Linear} {context : Context}
    (hM : context.entity? "M" = some (.set 2)) (hS : context.entity? "S" = some (.set 1))
    (hx : context.entity? "x" = some (.variable 3))
    (hcharges : ∀ charge ∈ charges, charge.scoped context = true) :
    Program.declared? context (goal options charges) = some [] := by
  refine Program.declared?_silent fun statement hmem => ?_
  rcases mem_goal hmem with rfl | rfl | ⟨-, ⟨cutoff, -, -, rfl⟩ | ⟨-, rfl⟩⟩
  · rfl
  · simp [mostGames, times, playedIn, hM, hS, hx]
  · have hbounded : ∀ charge ∈ cutoff.bounded charges, charge.scoped context = true :=
      fun charge hcharge => hcharges charge (List.mem_of_mem_drop hcharge)
    simpa using hbounded
  · simp only [Statement.declared?, Linear.allScoped_eq_all]
    exact if_pos (List.all_eq_true.mpr hcharges)

namespace Tournament

/-- All that a program declares. -/
def entities (t : Tournament) (options : Options) : List (String × Entity) :=
  Frame.entities t options ++ t.numbered.flatMap (Numbered.entities options)

/-- Rules and odd families declare none of the fixed names of frames. -/
theorem mem_fixedEntities {t : Tournament} {options : Options} {name : String}
    (hname : name ∈ Frame.fixedNames) (h : name ∈ (t.entities options).map Prod.fst) :
    name ∈ (Frame.fixedEntities t options).map Prod.fst := by
  have hapart : ∀ name ∈ Frame.fixedNames, Apart name "K" ∧ Apart name "I" := by decide
  obtain ⟨hK, hI⟩ := hapart name hname
  rw [entities, List.map_append, List.mem_append] at h
  rcases h with hframe | hrule
  · rw [((Frame.perm_entities t options).map Prod.fst).mem_iff, List.map_append, List.mem_append,
      Frame.map_familyEntities] at hframe
    exact hframe.resolve_right (Frame.notMem_familyNames_of_apart hK hI)
  · rw [List.map_flatMap] at hrule
    obtain ⟨rule, -, hrule⟩ := List.mem_flatMap.mp hrule
    exact absurd ((rule.sublist_entities options).subset hrule)
      (Numbered.notMem_ownNames_of_fixed hname rule)

theorem declared?_program (t : Tournament) (options : Options) :
    Program.declared? {} (t.program options) = some (t.entities options) := by
  have hfresh := Numbered.fresh_entities t options
  have hframe := hfresh.first.declares
  have hrules := Program.declared?_append (Frame.declared?_statements hfresh.first)
    (Program.declared?_flatMap hframe hfresh.rest
      fun rule hmem _ hframe hrule => Numbered.declared?_statements hframe hrule hmem)
  have hall : Context.Declares (Context.add {} (t.entities options)) (t.entities options) :=
    hfresh.declares
  have hbase : Context.Declares (Context.add {} (t.entities options)) (Frame.baseEntities t) :=
    hall.mono fun pair hpair => by
      rcases List.mem_append.mp hpair with hpair | hpair <;> simp [entities, Frame.entities, hpair]
  have hcharges : ∀ charge ∈ t.charges options,
      charge.scoped (Context.add {} (t.entities options)) = true := by
    intro charge hcharge
    obtain ⟨rule, hmem, hcharge⟩ := List.mem_flatMap.mp hcharge
    have hown := hall.mono fun pair (hpair : pair ∈ rule.entities options) =>
      List.mem_append_right _ (List.mem_flatMap.mpr ⟨rule, hmem, hpair⟩)
    exact (Numbered.scoped_fragment (hall.mono (List.subset_append_left _ _)) hown hmem).charges
      charge hcharge
  exact Program.declared?_append_quiet hrules (declared?_goal (Frame.entity?_pairs hbase).1
    (Frame.entity?_slots hbase) (Frame.entity?_games hbase) hcharges)

/-- A formulated tournament uses only names that it declares before, each as what it is declared as,
and symbols that are bound around their use. -/
theorem wellScoped {t : Tournament} {options : Options} {program : Program}
    (h : t.formulate options = .ok program) : program.WellScoped := by
  obtain ⟨rfl, -⟩ := Tournament.of_formulate h
  exact ⟨_, t.declared?_program options, Numbered.fresh_entities t options⟩

end Tournament

/-- Two teams, of which the first is to play at home at most once and has a break at most once. -/
def breakPairTournament : Tournament where
  name := none
  teams := [0, 1]
  slots := [0, 1]
  phased := true
  rules := [⟨.soft 2, .ca3 ⟨0, 1, 2, .home, [0], [1]⟩⟩, ⟨.soft 1, .br1 ⟨1, .both, [0, 1], [0]⟩⟩]

theorem wellScoped_breakPair : (breakPairTournament.program {}).WellScoped :=
  have hprogram : breakPairTournament.formulate {} = .ok (breakPairTournament.program {}) := rfl
  Tournament.wellScoped hprogram

end RoundRobin
