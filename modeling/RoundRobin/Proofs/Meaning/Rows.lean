import RoundRobin.Proofs.Meaning.Halves
import RoundRobin.Proofs.Naming.Program
import RoundRobin.Proofs.Zimpl.Places

/-! The rows of a program by their names. No two constraints have the same name, so the rows of a
rule or of a part of the frame are those of its name, and what they ask can be said of each name
alone. -/

namespace RoundRobin

open Zimpl

namespace Zimpl.Program

variable {program : Program} {names : List String} {env : Env} {values : Assignment}

/-- Those variables of a program are within their bounds that have one of some names. -/
def AdmitsOn (program : Program) (names : List String) (env : Env) (values : Assignment) : Prop :=
  ∀ decl ∈ program.varDecls, decl.name ∈ names → decl.Holds env values

theorem HoldsOn.mono {others : List String} (h : program.HoldsOn names env values)
    (hsub : others ⊆ names) : program.HoldsOn others env values :=
  fun block hblock hname => h block hblock (hsub hname)

theorem Holds.admitsOn (h : program.Holds values) (henv : program.env? = some env)
    (names : List String) : program.AdmitsOn names env values := by
  obtain ⟨env', henv', hdecls, -⟩ := h
  obtain rfl : env' = env := Option.some.inj (henv'.symm.trans henv)
  exact fun decl hdecl _ => hdecls decl hdecl

/-- The rows of some names hold if and only if those of each of them do. -/
theorem holdsOn_iff_forall :
    program.HoldsOn names env values ↔ ∀ name ∈ names, program.HoldsOn [name] env values := by
  constructor
  · exact fun h name hname => h.mono (List.cons_subset.mpr ⟨hname, List.nil_subset _⟩)
  · exact fun h block hblock hname => h block.name hname block hblock (List.mem_singleton_self _)

theorem admitsOn_iff_forall :
    program.AdmitsOn names env values ↔ ∀ name ∈ names, program.AdmitsOn [name] env values := by
  constructor
  · intro h name hname decl hdecl hone
    exact h decl hdecl (List.mem_singleton.mp hone ▸ hname)
  · exact fun h decl hdecl hname => h decl.name hname decl hdecl (List.mem_singleton_self _)

/-- The variables of a program are some of what it declares. -/
theorem sublist_varDecls (program : Program) :
    (program.varDecls.map (·.name)).Sublist program.declaredNames := by
  induction program with
  | nil => exact .slnil
  | cons statement program ih =>
    cases statement with
    | var decl => exact ih.cons_cons decl.name
    | param name _ | set name _ | setFamily name _ => exact ih.cons name
    | comment _ | blank | subto _ | objective _ => exact ih

theorem admitsOn_of_undeclared
    (h : ∀ name ∈ names, name ∉ program.declaredNames) : program.AdmitsOn names env values :=
  fun _ hdecl hname =>
    absurd (program.sublist_varDecls.subset (List.mem_map_of_mem hdecl)) (h _ hname)

namespace NamedApart

variable (h : program.NamedApart)
include h

/-- What is said of the rows of a constraint's name is said of that constraint. -/
theorem forall_named_iff {block : Subto} (hblock : block ∈ program.subtos) {p : Subto → Prop} :
    (∀ other ∈ program.subtos, other.name ∈ [block.name] → p other) ↔ p block := by
  constructor
  · exact fun hon => hon block hblock (List.mem_singleton_self _)
  · intro hholds other hother hname
    obtain rfl := List.inj_on_of_nodup_map h.constraints hother hblock (List.mem_singleton.mp hname)
    exact hholds

theorem holdsOn_iff {block : Subto} (hblock : block ∈ program.subtos) :
    program.HoldsOn [block.name] env values ↔ block.Holds env values :=
  h.forall_named_iff hblock

theorem holdsOn_iff_part {part : List Subto} {block : Subto} (hpart : part = [block])
    {name : String} (hname : block.name = name) (hblock : block ∈ program.subtos) :
    program.HoldsOn [name] env values ↔ ∀ block ∈ part, block.Holds env values := by
  rw [hpart, List.forall_mem_singleton, ← hname, h.holdsOn_iff hblock]

/-- The rows of the names of some constraints are those constraints. -/
theorem holdsOn_map {part : List Subto} (hpart : part ⊆ program.subtos) :
    program.HoldsOn (part.map (·.name)) env values ↔ ∀ block ∈ part, block.Holds env values := by
  rw [holdsOn_iff_forall, List.forall_mem_map]
  exact forall₂_congr fun block hblock => h.holdsOn_iff (hpart hblock)

theorem admitsOn_iff {decl : VarDecl} (hdecl : decl ∈ program.varDecls) (env : Env)
    (values : Assignment) :
    program.AdmitsOn [decl.name] env values ↔ decl.Holds env values := by
  constructor
  · exact fun hon => hon decl hdecl (List.mem_singleton_self _)
  · intro hholds other hother hname
    obtain rfl := List.inj_on_of_nodup_map (h.declarations.sublist program.sublist_varDecls)
      hother hdecl (List.mem_singleton.mp hname)
    exact hholds

theorem admitsOn_map {part : List VarDecl} (hpart : part ⊆ program.varDecls) :
    program.AdmitsOn (part.map (·.name)) env values ↔ ∀ decl ∈ part, decl.Holds env values := by
  rw [admitsOn_iff_forall, List.forall_mem_map]
  exact forall₂_congr fun decl hdecl => h.admitsOn_iff (hpart hdecl) env values

end NamedApart

end Zimpl.Program

section Parts

variable {t : Tournament} {options : Options} {env : Env} {values : Assignment}

/-- A constraint that is named as those of frames are is one of the frame. -/
theorem Frame.mem_fixedBlocks {block : Subto} (h : block ∈ Program.subtos (t.program options))
    (hname : block.name ∈ Frame.fixedConstraints) : block ∈ Frame.fixedBlocks t options := by
  have hapart : ∀ name ∈ Frame.fixedConstraints, name ≠ "oc1" ∧ name ≠ "c6" ∧ Apart name "cos" ∧
      ∀ kind : Kind, ¬ kind.stem.toList <+: name.toList := by
    intro name hname
    refine ⟨?_, ?_, ?_, fun kind => ?_⟩
    · revert name; decide
    · revert name; decide
    · revert name; decide
    · cases kind <;> revert name <;> decide
  obtain ⟨hcutoff, hsix, hcos, hstems⟩ := hapart _ hname
  rw [t.subtos_program, List.mem_append, List.mem_append] at h
  rcases h with (hframe | hrule) | hgoal
  · rw [(Frame.perm_subtos t options).mem_iff, List.mem_append] at hframe
    refine hframe.resolve_right fun hodd => ?_
    have hodd := List.mem_map_of_mem (f := Subto.name) hodd
    rw [Frame.names_oddFamilies] at hodd
    rcases Frame.oddName_cases hodd with heq | ⟨rest, heq⟩
    · exact hsix heq
    · exact hcos.ne_append heq
  · obtain ⟨rule, -, hblock⟩ := List.mem_flatMap.mp hrule
    obtain ⟨number, heq⟩ := Numbered.name_of_mem_subtos hblock
    rw [Numbered.nameWith_eq] at heq
    exact absurd heq (ne_append (hstems rule.rule.kind))
  · have hgoal := (sublist_names_goal options (t.charges options)).subset
      (List.mem_map_of_mem (f := Subto.name) hgoal)
    exact absurd (List.mem_singleton.mp hgoal) hcutoff

/-- Each constraint of a frame that is not on odd sets is one of the parts of its name. -/
theorem Frame.part_of_mem_fixedBlocks {block : Subto} (h : block ∈ Frame.fixedBlocks t options) :
    (block ∈ Program.subtos (Frame.schedule options) ∧ block.name ∈ ["c1", "c2", "c3"]) ∨
    (block ∈ Program.subtos (Frame.fixedCount options) ∧ block.name = "f1") ∨
    (block ∈ Program.subtos (Frame.breakCount t) ∧ block.name = "br_count") ∨
    (block ∈ Program.subtos (Frame.halves t options) ∧ block.name = "c4") ∨
    (block ∈ Program.subtos (Frame.homeGames t) ∧ block.name = "hg_count") ∨
    (block ∈ Program.subtos (Frame.mirror options) ∧ block.name = "c5") := by
  have hsingle {part : List Subto} {name : String} (hpart : (part.map (·.name)).Sublist [name])
      (hblock : block ∈ part) : block ∈ part ∧ block.name = name :=
    ⟨hblock, List.mem_singleton.mp (hpart.subset (List.mem_map_of_mem hblock))⟩
  simp only [Frame.fixedBlocks, List.mem_append] at h
  rcases h with (h | h) | ((h | h) | h) | h
  · exact .inl ⟨h, List.mem_map_of_mem (f := Subto.name) h⟩
  · exact .inr (.inl (hsingle (Frame.sublist_names_ite _ _) h))
  · exact .inr (.inr (.inl (hsingle (Frame.sublist_names_ite _ _) h)))
  · exact .inr (.inr (.inr (.inl (hsingle (Frame.sublist_names_ite _ _) h))))
  · exact .inr (.inr (.inr (.inr (.inl (hsingle (Frame.sublist_names_ite _ _) h)))))
  · exact .inr (.inr (.inr (.inr (.inr (hsingle (Frame.sublist_names_ite _ _) h)))))

/-- The rows that define breaks and home games hold where those parts of the frame do. -/
theorem Frame.holdsOn_counters
    (hbreaks : ∀ block ∈ Program.subtos (Frame.breakCount t), block.Holds env values)
    (hhome : ∀ block ∈ Program.subtos (Frame.homeGames t), block.Holds env values) :
    (t.program options).HoldsOn ["br_count", "hg_count"] env values := by
  intro block hblock hname
  have hfixed := Frame.mem_fixedBlocks hblock
    ((show ["br_count", "hg_count"] ⊆ Frame.fixedConstraints by decide) hname)
  rcases Frame.part_of_mem_fixedBlocks hfixed with
    ⟨-, hpart⟩ | ⟨-, hpart⟩ | ⟨hpart, -⟩ | ⟨-, hpart⟩ | ⟨hpart, -⟩ | ⟨-, hpart⟩
  · exact absurd hname
      ((show ∀ name ∈ ["c1", "c2", "c3"], name ∉ ["br_count", "hg_count"] by decide) _ hpart)
  · exact absurd hname (hpart ▸ by decide)
  · exact hbreaks block hpart
  · exact absurd hname (hpart ▸ by decide)
  · exact hhome block hpart
  · exact absurd hname (hpart ▸ by decide)

/-- The rows on games, halves and the mirror hold where those parts of the frame do. -/
theorem Frame.holdsOn_structure
    (hschedule : ∀ block ∈ Program.subtos (Frame.schedule options), block.Holds env values)
    (hhalves : ∀ block ∈ Program.subtos (Frame.halves t options), block.Holds env values)
    (hmirror : ∀ block ∈ Program.subtos (Frame.mirror options), block.Holds env values) :
    (t.program options).HoldsOn ["c1", "c2", "c3", "c4", "c5"] env values := by
  intro block hblock hname
  have hfixed := Frame.mem_fixedBlocks hblock
    ((show ["c1", "c2", "c3", "c4", "c5"] ⊆ Frame.fixedConstraints by decide) hname)
  rcases Frame.part_of_mem_fixedBlocks hfixed with
    ⟨hpart, -⟩ | ⟨-, hpart⟩ | ⟨-, hpart⟩ | ⟨hpart, -⟩ | ⟨-, hpart⟩ | ⟨hpart, -⟩
  · exact hschedule block hpart
  · exact absurd hname (hpart ▸ by decide)
  · exact absurd hname (hpart ▸ by decide)
  · exact hhalves block hpart
  · exact absurd hname (hpart ▸ by decide)
  · exact hmirror block hpart

end Parts

section Frame

variable {t : Tournament} {options : Options} {env : Env} {values : Assignment}
  (hnames : (t.program options).NamedApart)
include hnames

/-- Games are declared to take place or not. -/
theorem Frame.admitsOn_games (scene : Scene t options env) :
    (t.program options).AdmitsOn ["x"] env values ↔ ∀ q ∈ t.teamSet.offDiag ×ˢ t.slotSet,
      values "x" (Tuple.three q) = 0 ∨ values "x" (Tuple.three q) = 1 := by
  have hdecl : VarDecl.binary "x" (times "M" "S") ∈ Program.varDecls (t.program options) :=
    Frame.mem_varDecls_program (Frame.mem_varDecls.mpr (.inr (.inl (.head _))))
  exact (hnames.admitsOn_iff hdecl env values).trans (scene.games_hold (values.shows_tally t))

theorem Frame.holdsOn_breakCount (hbreaks : t.hasBreaks = true) :
    (t.program options).HoldsOn ["br_count"] env values ↔
      ∀ block ∈ Program.subtos (Frame.breakCount t), block.Holds env values := by
  obtain ⟨block, hname, hsubtos⟩ : ∃ block : Subto, block.name = "br_count" ∧
      Program.subtos (Frame.breakCount t) = [block] := by
    simp only [Frame.breakCount, hbreaks, if_true]
    exact ⟨_, rfl, rfl⟩
  have hblock : block ∈ Program.subtos (Frame.breakCount t) := hsubtos ▸ List.mem_singleton_self _
  exact hnames.holdsOn_iff_part hsubtos hname
    (Frame.mem_subtos_program (Frame.mem_subtos.mpr (.inr (.inl hblock))))

theorem Frame.holdsOn_homeGames (hbalance : t.hasBalance = true) :
    (t.program options).HoldsOn ["hg_count"] env values ↔
      ∀ block ∈ Program.subtos (Frame.homeGames t), block.Holds env values := by
  obtain ⟨block, hname, hsubtos⟩ : ∃ block : Subto, block.name = "hg_count" ∧
      Program.subtos (Frame.homeGames t) = [block] := by
    simp only [Frame.homeGames, hbalance, if_true]
    exact ⟨_, rfl, rfl⟩
  have hblock : block ∈ Program.subtos (Frame.homeGames t) := hsubtos ▸ List.mem_singleton_self _
  exact hnames.holdsOn_iff_part hsubtos hname
    (Frame.mem_subtos_program (Frame.mem_subtos.mpr (.inr (.inr hblock))))

end Frame

namespace Numbered

/-- Whether a rule adds any constraint. -/
def isEmitted (options : Options) (rule : Numbered) : Bool :=
  !(rule.fragment options).subtos.isEmpty

variable {t : Tournament} {options : Options} {env : Env} {values : Assignment} {tally : Tally}
  {rule : Numbered}

/-- A rule is emitted unless it is passed over or counts no slot with a break. -/
theorem isEmitted_iff : rule.isEmitted options = true ↔
    rule.isSkipped options = false ∧ rule.isVoid = false := by
  constructor
  · intro h
    rw [← Bool.not_eq_true, ← Bool.not_eq_true, ← not_or]
    intro hempty
    rw [isEmitted, fragment_eq_empty hempty] at h
    cases h
  · rintro ⟨hskip, hvoid⟩
    have hnames := names_of_not_void hskip hvoid
    rw [isEmitted, Bool.not_eq_true', List.isEmpty_eq_false_iff]
    intro hnone
    rw [hnone, numbers, List.map_nil, eq_comm, List.map_eq_nil_iff,
      List.range'_eq_nil_iff] at hnames
    exact rule.rule.demand.units_pos.ne' hnames

/-- A rule of another kind than GA1 that adds any constraint adds one, under its name. -/
theorem exists_block (hmem : rule ∈ t.numbered) (hemitted : rule.isEmitted options = true)
    (hkind : rule.rule.kind ≠ .ga1) : ∃ block ∈ Program.subtos (t.program options),
      block.name = rule.name ∧ (rule.fragment options).subtos = [block] := by
  obtain ⟨hskip, hvoid⟩ := isEmitted_iff.mp hemitted
  obtain ⟨foralls, rows, hsubtos⟩ := exists_subtos_eq hskip hvoid hkind
  exact ⟨_, mem_subtos_program hmem (hsubtos ▸ .head _), rfl, hsubtos⟩

/-- What holds of all that a rule adds holds of the constraint of its name. -/
theorem exists_block_of_forall (hmem : rule ∈ t.numbered) (hemitted : rule.isEmitted options = true)
    (hkind : rule.rule.kind ≠ .ga1) {p : Subto → Prop}
    (h : ∀ block ∈ (rule.fragment options).subtos, p block) :
    ∃ block ∈ Program.subtos (t.program options), block.name = rule.name ∧ p block := by
  obtain ⟨block, hblock, hname, hsubtos⟩ := exists_block hmem hemitted hkind
  rw [hsubtos, List.forall_mem_singleton] at h
  exact ⟨block, hblock, hname, h⟩

/-- The rows of a rule's name are those that the rule adds. -/
theorem holdsOn_iff_subtos (hnames : (t.program options).NamedApart) (hmem : rule ∈ t.numbered)
    (hemitted : rule.isEmitted options = true) (hkind : rule.rule.kind ≠ .ga1) :
    (t.program options).HoldsOn [rule.name] env values ↔
      ∀ block ∈ (rule.fragment options).subtos, block.Holds env values := by
  obtain ⟨block, hblock, hname, hsubtos⟩ := exists_block hmem hemitted hkind
  exact hnames.holdsOn_iff_part hsubtos hname hblock

/-- The rows of an emitted rule's name hold if and only if it is kept with the slack that its
violation gives. -/
theorem holdsOn_iff (stage : Stage t options env) (shows : values.Shows t tally)
    (hwell : t.WellFormed) (hcheck : ∀ rule ∈ t.numbered, rule.check options = .ok ())
    (hmem : rule ∈ t.numbered) (hemitted : rule.isEmitted options = true)
    (hkind : rule.rule.kind ≠ .ga1) (honce : rule.rule.kind = .se1 →
      ∀ p ∈ t.teamSet.offDiag, ∑ slot ∈ t.slotSet, tally.game p.1 p.2 slot = 1) :
    (t.program options).HoldsOn [rule.name] env values ↔
      rule.rule.demand.KeptWithin t tally options (rule.slack values) := by
  have hnames := t.names_apart options
  have hskip := (isEmitted_iff.mp hemitted).1
  rw [holdsOn_iff_subtos hnames hmem hemitted hkind]
  exact subtos_hold stage.toScene shows stage.symbols hwell hmem (hcheck rule hmem) hskip honce
    (stage.known rule hmem hskip)

end Numbered

end RoundRobin
