import RoundRobin.Proofs.Charging.Strict
import RoundRobin.Proofs.Naming.Binders
import RoundRobin.Proofs.Numbering.Names
import RoundRobin.Proofs.Scoping.Program

/-! The names of a formulated program. No two constraints have the same name, no two declarations
have, and none of what is declared is bound as a symbol. -/

namespace RoundRobin

open Zimpl

namespace Numbered

/-- Rules of one kind take numbers apart from each other. -/
theorem pairwise_disjoint_numbers (t : Tournament) :
    t.numbered.Pairwise fun a b => a.rule.kind = b.rule.kind → a.numbers.Disjoint b.numbers := by
  have hkind (kind : Kind) : t.numbered.Pairwise fun a b =>
      a.rule.kind = kind → b.rule.kind = kind → a.numbers.Disjoint b.numbers := by
    have hnodup :
        ((t.numbered.filter fun rule => rule.rule.kind = kind).flatMap numbers).Nodup := by
      rw [show t.numbered = allBehind [] t.rules from rfl, flatMap_numbers_allBehind]
      exact List.nodup_range'
    refine (List.pairwise_filter.mp (List.nodup_flatMap.mp hnodup).2).imp fun h ha hb => ?_
    exact h (decide_eq_true ha) (decide_eq_true hb)
  rw [List.pairwise_iff_getElem]
  intro i j hi hj hij heq
  exact List.pairwise_iff_getElem.mp (hkind _) i j hi hj hij rfl heq.symm

/-- The names of the constraints that a rule adds are some of those that belong to it. -/
theorem sublist_names (options : Options) (rule : Numbered) :
    ((rule.fragment options).subtos.map (·.name)).Sublist
      (rule.numbers.map (nameWith rule.rule.kind)) := by
  by_cases hnone : (rule.fragment options).subtos = []
  · rw [hnone]
    exact List.nil_sublist _
  · rw [names_subtos hnone]

theorem nodup_names (t : Tournament) (options : Options) :
    ((t.numbered.flatMap fun rule => (rule.fragment options).subtos).map (·.name)).Nodup := by
  rw [List.map_flatMap]
  refine List.nodup_flatMap.mpr ⟨fun rule _ => ?_, ?_⟩
  · refine List.Nodup.sublist (rule.sublist_names options) (List.Nodup.map ?_ List.nodup_range')
    exact fun _ _ h => (nameWith_injective h).2
  · refine (pairwise_disjoint_numbers t).imp fun {a b} hdisjoint name ha hb => ?_
    obtain ⟨m, hm, rfl⟩ := List.mem_map.mp ((a.sublist_names options).subset ha)
    obtain ⟨n, hn, hname⟩ := List.mem_map.mp ((b.sublist_names options).subset hb)
    obtain ⟨hkind, rfl⟩ := nameWith_injective hname
    exact hdisjoint hkind.symm hm hn

end Numbered

namespace Frame

/-- The names of the constraints of frames, but for those of odd sets. -/
def fixedConstraints : List String := ["c1", "c2", "c3", "f1", "br_count", "c4", "hg_count", "c5"]

/-- The constraints of a frame but for those of odd sets. -/
def fixedBlocks (t : Tournament) (options : Options) : List Subto :=
  Program.subtos (schedule options) ++ Program.subtos (fixedCount options)
    ++ (Program.subtos (breakCount t) ++ Program.subtos (halves t options)
    ++ Program.subtos (homeGames t) ++ Program.subtos (mirror options))

theorem sublist_names_ite (condition : Prop) [Decidable condition] (part : Program) :
    ((Program.subtos (if condition then part else [])).map (·.name)).Sublist
      (part.subtos.map (·.name)) := by
  split
  · exact .refl _
  · exact List.nil_sublist _

theorem sublist_fixedBlocks (t : Tournament) (options : Options) :
    ((fixedBlocks t options).map (·.name)).Sublist fixedConstraints := by
  have hschedule : ((Program.subtos (schedule options)).map (·.name)).Sublist ["c1", "c2", "c3"] :=
    .refl _
  have hfixed : ((Program.subtos (fixedCount options)).map (·.name)).Sublist ["f1"] :=
    sublist_names_ite _ _
  have hbreaks : ((Program.subtos (breakCount t)).map (·.name)).Sublist ["br_count"] :=
    sublist_names_ite _ _
  have hhalves : ((Program.subtos (halves t options)).map (·.name)).Sublist ["c4"] :=
    sublist_names_ite _ _
  have hhome : ((Program.subtos (homeGames t)).map (·.name)).Sublist ["hg_count"] :=
    sublist_names_ite _ _
  have hmirror : ((Program.subtos (mirror options)).map (·.name)).Sublist ["c5"] :=
    sublist_names_ite _ _
  simp only [fixedBlocks, List.map_append]
  exact (hschedule.append hfixed).append (((hbreaks.append hhalves).append hhome).append hmirror)

theorem perm_subtos (t : Tournament) (options : Options) :
    (Program.subtos (statements t options)).Perm (fixedBlocks t options
      ++
        Program.subtos
          ((oddFamilies t options).flatMap fun (name, size) => oddFamily name size)) := by
  simp only [subtos_statements, fixedBlocks, List.append_assoc]
  refine List.Perm.append_left _ (List.Perm.append_left _ ?_)
  refine List.perm_append_comm.trans ?_
  simp only [List.append_assoc]
  exact .refl _

theorem names_oddFamilies (families : List (String × Nat)) :
    (Program.subtos (families.flatMap fun (name, size) => oddFamily name size)).map (·.name) =
      families.map (·.1) := by
  induction families with
  | nil => rfl
  | cons family families ih =>
    rw [List.flatMap_cons, Program.subtos_append, List.map_append, ih]
    rfl

/-- The constraints on odd sets of different sizes have different names. -/
theorem nodup_oddNames (t : Tournament) (options : Options) :
    ((oddFamilies t options).map (·.1)).Nodup := by
  unfold oddFamilies
  split
  · exact List.nodup_nil
  · exact List.nodup_singleton _
  · rw [List.map_map]
    exact (List.nodup_range.filter _).map fun _ _ h => toString_injective (append_left_cancel h)

theorem oddName_cases {name : String} {t : Tournament} {options : Options}
    (h : name ∈ (oddFamilies t options).map (·.1)) : name = "c6" ∨ ∃ rest,
    name = "cos" ++ rest := by
  unfold oddFamilies at h
  split at h
  · exact nomatch h
  · exact .inl (List.mem_singleton.mp h)
  · rw [List.map_map] at h
    obtain ⟨size, -, rfl⟩ := List.mem_map.mp h
    exact .inr ⟨_, rfl⟩

theorem nodup_names (t : Tournament) (options : Options) :
    ((Program.subtos (statements t options)).map (·.name)).Nodup := by
  have hapart : ∀ name ∈ fixedConstraints, name ≠ "c6" ∧ Apart name "cos" := by decide
  rw [((perm_subtos t options).map (·.name)).nodup_iff, List.map_append, names_oddFamilies]
  refine List.Nodup.append ((show fixedConstraints.Nodup by decide).sublist
    (sublist_fixedBlocks t options)) (nodup_oddNames t options) fun name hfixed hodd => ?_
  obtain ⟨hsix, hcos⟩ := hapart name ((sublist_fixedBlocks t options).subset hfixed)
  rcases oddName_cases hodd with rfl | ⟨rest, rfl⟩
  · exact hsix rfl
  · exact hcos.ne_append rfl

/-- No constraint of a frame is named as those of rules are. -/
theorem notMem_names_of_nameWith (t : Tournament) (options : Options) (kind : Kind) (number : Nat) :
    Numbered.nameWith kind number ∉ (Program.subtos (statements t options)).map (·.name) := by
  have hfixed : ∀ kind : Kind,
      (∀ name ∈ "c6" :: fixedConstraints, ¬ kind.stem.toList <+: name.toList) ∧
      Apart kind.stem "cos" := fun kind => by
    cases kind <;> decide
  obtain ⟨hnames, hcos⟩ := hfixed kind
  rw [Numbered.nameWith_eq, ((perm_subtos t options).map (·.name)).mem_iff, List.map_append,
    names_oddFamilies, List.mem_append]
  rintro (hname | hname)
  · exact ne_append (hnames _ (.tail _ ((sublist_fixedBlocks t options).subset hname))) rfl
  · rcases oddName_cases hname with hsix | ⟨rest, hname⟩
    · exact ne_append (hnames _ (.head _)) hsix.symm
    · exact hcos.append_ne hname

end Frame

/-- The only constraint behind the rules is the cutoff. -/
theorem sublist_names_goal (options : Options) (charges : List Linear) :
    ((Program.subtos (goal options charges)).map (·.name)).Sublist ["oc1"] := by
  have hobjective : Program.subtos
      (if charges.isEmpty then [] else [.blank, .objective (leastViolation charges)]) = [] := by
    split <;> rfl
  unfold goal
  split
  · exact List.nil_sublist _
  · split
    · exact List.nil_sublist _
    · rw [Program.subtos_append, hobjective, List.append_nil]
      cases options.cutoff with
      | none => exact List.nil_sublist _
      | some cutoff =>
        dsimp only [Cutoff.statements]
        split
        · exact List.nil_sublist _
        · exact .refl _

/-- The names of a program are told apart. -/
structure Zimpl.Program.NamedApart (program : Program) : Prop where
  /-- No two constraints have the same name. -/
  constraints : (program.subtos.map (·.name)).Nodup
  /-- No two parameters, sets and variables have, taken together. -/
  declarations : program.declaredNames.Nodup
  /-- No index binds a symbol that is declared. -/
  symbols : ∀ name ∈ program.declaredNames, .bound name ∉ Program.mentions program

namespace Tournament

variable {t : Tournament} {options : Options}

theorem nodup_constraints (t : Tournament) (options : Options) :
    ((Program.subtos (t.program options)).map (·.name)).Nodup := by
  have hgoal := sublist_names_goal options (t.charges options)
  rw [t.subtos_program, List.map_append, List.map_append]
  refine List.Nodup.append (List.Nodup.append (Frame.nodup_names t options)
    (Numbered.nodup_names t options) fun name hframe hrule => ?_)
      ((List.nodup_singleton "oc1").sublist hgoal)
    fun name hname hlast => ?_
  · obtain ⟨block, hblock, rfl⟩ := List.mem_map.mp hrule
    obtain ⟨rule, -, hblock⟩ := List.mem_flatMap.mp hblock
    obtain ⟨number, hname⟩ := Numbered.name_of_mem_subtos hblock
    exact Frame.notMem_names_of_nameWith t options rule.rule.kind number (hname ▸ hframe)
  · obtain rfl := List.mem_singleton.mp (hgoal.subset hlast)
    rcases List.mem_append.mp hname with hname | hname
    · obtain ⟨block, hblock, hname⟩ := List.mem_map.mp hname
      exact (Frame.plain_of_mem_subtos hblock).1 hname
    · obtain ⟨block, hblock, hname⟩ := List.mem_map.mp hname
      obtain ⟨rule, -, hblock⟩ := List.mem_flatMap.mp hblock
      exact Numbered.name_ne_of_mem_subtos hblock hname

theorem declaredNames_program (t : Tournament) (options : Options) :
    Program.declaredNames (t.program options) = (t.entities options).map Prod.fst :=
  (Program.map_fst_declared (t.declared?_program options)).symm

/-- What a program declares is no symbol that it binds. -/
theorem notMem_binders_of_declared {name : String}
    (h : name ∈ Program.declaredNames (t.program options)) : name ∉ binders := by
  have hbinders : ∀ name ∈ binders, name ∉ Frame.fixedNames ∧ Apart name "K" ∧ Apart name "I" ∧
      ∀ head ∈ [Kind.ca3, .ca4, .se1, .br1, .br2, .fa2].flatMap fun kind => [kind.tag, kind.stem],
        ¬ head.toList <+: name.toList := by
    decide
  intro hbinder
  obtain ⟨hfixed, hK, hI, hheads⟩ := hbinders name hbinder
  rw [t.declaredNames_program, entities, List.map_append, List.mem_append] at h
  rcases h with hframe | hrule
  · rcases Frame.mem_names_of_mem_entities hframe with hname | hname
    · exact hfixed hname
    · exact Frame.notMem_familyNames_of_apart hK hI hname
  · rw [List.map_flatMap] at hrule
    obtain ⟨rule, -, hname⟩ := List.mem_flatMap.mp hrule
    obtain ⟨head, hhead, rest, rfl⟩ :=
      Numbered.append_of_mem_ownNames ((rule.sublist_entities options).subset hname)
    exact ne_append (hheads head hhead) rfl

/-- The names of a program are told apart, whether or not it can be formulated. -/
theorem names_apart (t : Tournament) (options : Options) : (t.program options).NamedApart := by
  refine ⟨t.nodup_constraints options, ?_, fun name hname hbound => ?_⟩
  · rw [t.declaredNames_program]
    exact Numbered.fresh_entities t options
  · exact notMem_binders_of_declared hname ((t.plain_program options).mem_binders hbound)

/-- The names of a formulated tournament are told apart. -/
theorem namedApart {program : Program} (h : t.formulate options = .ok program) :
    program.NamedApart := by
  obtain ⟨rfl, -⟩ := of_formulate h
  exact t.names_apart options

end Tournament

/-- Six teams with a least number of meetings, a balance of home games for two pairs of teams, and a
window of slots. -/
def balancedTournament : Tournament where
  name := none
  teams := [0, 1, 2, 3, 4, 5]
  slots := [0, 1, 2, 3, 4, 5, 6, 7, 8, 9]
  phased := true
  rules := [⟨.soft 3, .ga1 ⟨1, 1, [0], [⟨0, 1, Int.zero_ne_one⟩]⟩⟩,
    ⟨.soft 1, .fa2 ⟨2, [0, 1], [4, 9]⟩⟩,
    ⟨.hard, .fa2 ⟨1, [2, 3], [9]⟩⟩, ⟨.soft 2, .ca3 ⟨0, 2, 3, .home, [0], [1, 2]⟩⟩]

/-- The names of sets and variables of odd sets, shared arrays and rules together. -/
theorem namedApart_balanced :
    (balancedTournament.program { oddSets := .all, minPenalty := .separate }).NamedApart :=
  have hprogram : balancedTournament.formulate { oddSets := .all, minPenalty := .separate } =
    .ok (balancedTournament.program { oddSets := .all, minPenalty := .separate }) := rfl
  Tournament.namedApart hprogram

end RoundRobin
