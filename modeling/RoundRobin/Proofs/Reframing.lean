import RoundRobin.Proofs.Naming.Program

/-! One tournament under different options. The options on the season as a whole add or leave out
parts around those of the rules and decide whether four constraints are equations. What the rules
add does not depend on them, and neither does what is declared, but for odd sets. -/

namespace RoundRobin

open Zimpl

/-- Options that agree on whether soft rules are formulated and on how lower bounds give way. -/
structure Options.AgreeOnRules (a b : Options) : Prop where
  soft : a.soft = b.soft
  minPenalty : a.minPenalty = b.minPenalty

namespace Zimpl

/-- The block with another relation in its rows. -/
def Subto.related (relation : Relation) (block : Subto) : Subto :=
  { block with rows := block.rows.map fun row => { row with relation } }

/-- The constraints that hold exactly or as upper bounds. -/
def Subto.isStructural (block : Subto) : Bool := block.name ∈ ["c1", "c2", "c3", "c4"]

/-- Whether a name is that of a family of odd sets or of its indices. -/
def namesOddSets (name : String) : Bool :=
  match name.toList with
  | 'K' :: digits | 'I' :: digits => (Text.digits? digits).isSome
  | _ => false

/-- Whether a statement declares a parameter, a variable, or a set other than odd sets. -/
def Statement.declaresPlain : Statement → Bool
  | .param _ _ | .var _ => true
  | .set name _ | .setFamily name _ => !namesOddSets name
  | _ => false

/-- What options add to a program or leave out: whole constraints, with the sets that they refer to
and the comments and blank lines in front of them, and objectives. -/
inductive Program.IsOptional : Program → Prop
  | nil : IsOptional []
  | append {p q : Program} (h : IsOptional p) (behind : IsOptional q) : IsOptional (p ++ q)
  /-- The number of games, the pairings of the first half, or the mirrored half. -/
  | block {title : String} {block : Subto} (h : block.name ∈ ["f1", "c4", "c5"]) :
    IsOptional [.blank, .comment title, .subto block]
  /-- The odd sets of a size. -/
  | oddSets {title : String} {size : Nat} {block : Subto}
    (h : block.name = "c6" ∨ block.name = "cos" ++ toString size) :
    IsOptional [.blank, .comment title, .setFamily ("K" ++ toString size) (.subsets "T" size),
      .set ("I" ++ toString size) (.indexset ("K" ++ toString size)), .subto block]
  | cutoff {block : Subto} (h : block.name = "oc1") : IsOptional [.blank, .subto block]
  | objective (goal : Objective) : IsOptional [.blank, .objective goal]

/-- Programs that differ in optional parts and in the relations of structural constraints, and are
the same statement by statement elsewhere. -/
inductive Program.Reframed (relation other : Relation) : Program → Program → Prop
  | nil : Reframed relation other [] []
  | same {p q : Program} (statement : Statement) (behind : Reframed relation other p q) :
    Reframed relation other (statement :: p) (statement :: q)
  | related {p q : Program} {block : Subto} (h : block.isStructural = true)
    (behind : Reframed relation other p q) :
    Reframed relation other (.subto (block.related relation) :: p)
      (.subto (block.related other) :: q)
  | left {part p q : Program} (h : part.IsOptional) (behind : Reframed relation other p q) :
    Reframed relation other (part ++ p) q
  | right {part p q : Program} (h : part.IsOptional) (behind : Reframed relation other p q) :
    Reframed relation other p (part ++ q)

namespace Program

variable {relation other : Relation} {p q r s part : Program}

theorem Reframed.refl (p : Program) : Reframed relation other p p := by
  induction p with
  | nil => exact .nil
  | cons statement p ih => exact ih.same statement

theorem Reframed.append (h : Reframed relation other p q) (h' : Reframed relation other r s) :
    Reframed relation other (p ++ r) (q ++ s) := by
  induction h with
  | nil => exact h'
  | same statement _ ih => exact ih.same statement
  | related hblock _ ih => exact ih.related hblock
  | left hpart _ ih =>
    rw [List.append_assoc]
    exact ih.left hpart
  | right hpart _ ih =>
    rw [List.append_assoc]
    exact ih.right hpart

theorem IsOptional.left (h : part.IsOptional) : Reframed relation other part [] := by
  simpa using Reframed.nil.left h

theorem IsOptional.right (h : part.IsOptional) : Reframed relation other [] part := by
  simpa using Reframed.nil.right h

theorem IsOptional.reframed (h : p.IsOptional) (h' : q.IsOptional) :
    Reframed relation other p q := by
  simpa using h.left.append h'.right

/-- Optional parts that are there under one condition and under another. -/
theorem Reframed.ite (hpart : p.IsOptional) (hother : q.IsOptional)
    (h : Reframed relation other p q) (here there : Prop) [Decidable here] [Decidable there] :
    Reframed relation other (if here then p else []) (if there then q else []) := by
  split <;> split
  · exact h
  · exact hpart.left
  · exact hother.right
  · exact .nil

theorem IsOptional.ite (h : part.IsOptional) (condition : Prop) [Decidable condition] :
    Program.IsOptional (if condition then [] else part) := by
  split
  · exact .nil
  · exact h

theorem IsOptional.flatMap {α : Type} {items : List α} {part : α → Program}
    (h : ∀ item ∈ items, (part item).IsOptional) : Program.IsOptional (items.flatMap part) := by
  induction items with
  | nil => exact .nil
  | cons item items ih =>
    obtain ⟨hitem, hitems⟩ := List.forall_mem_cons.mp h
    exact hitem.append (ih hitems)

theorem namesOddSets_append {letter : Char} (h : letter = 'K' ∨ letter = 'I') {name : String}
    (hname : name.toList = [letter]) (size : Nat) :
    namesOddSets (name ++ toString size) = true := by
  have hdigit : ∀ c ∈ Nat.toDigits 10 size, c.isDigit = true := fun _ hc =>
    Nat.isDigit_of_mem_toDigits (by decide) (by decide) hc
  have hlist : (name ++ toString size).toList = letter :: Nat.toDigits 10 size := by
    rw [String.toList_append, hname]
    simp
  unfold namesOddSets
  rw [hlist]
  rcases h with rfl | rfl <;>
    simp [Text.digits?, Nat.toDigits_ne_nil, List.all_eq_true.mpr hdigit]

/-- Optional parts declare odd sets at most. -/
theorem IsOptional.filter_declaresPlain (h : part.IsOptional) :
    part.filter Statement.declaresPlain = [] := by
  induction h with
  | append _ _ ih ih' => rw [List.filter_append, ih, ih', List.append_nil]
  | @oddSets title size block _ =>
    have hsets : namesOddSets ("K" ++ toString size) = true :=
      namesOddSets_append (.inl rfl) rfl size
    have hindices : namesOddSets ("I" ++ toString size) = true :=
      namesOddSets_append (.inr rfl) rfl size
    simp only [List.filter_cons, Statement.declaresPlain, hsets, hindices]
    rfl
  | _ => rfl

/-- Programs that differ in the frame alone declare the same, but for odd sets. -/
theorem Reframed.filter_declaresPlain (h : Reframed relation other p q) :
    p.filter Statement.declaresPlain = q.filter Statement.declaresPlain := by
  induction h with
  | nil => rfl
  | same statement _ ih => rw [List.filter_cons, List.filter_cons, ih]
  | related _ _ ih => exact ih
  | left hpart _ ih => rw [List.filter_append, hpart.filter_declaresPlain, ih, List.nil_append]
  | right hpart _ ih => rw [List.filter_append, hpart.filter_declaresPlain, ih, List.nil_append]

end Program

/-- A block as it stands in a frame whose structural constraints have a relation. -/
def Subto.framed (relation : Relation) (block : Subto) : Subto :=
  if block.isStructural then block.related relation else block

end Zimpl

section Rules

variable {a b : Options}

theorem Options.AgreeOnRules.isSkipped_eq (h : a.AgreeOnRules b) (rule : Numbered) :
    rule.isSkipped a = rule.isSkipped b := by
  rw [Numbered.isSkipped, Numbered.isSkipped, Rule.isSkipped, Rule.isSkipped, h.soft]

theorem Options.AgreeOnRules.fragment_eq (h : a.AgreeOnRules b) (rule : Numbered) :
    rule.fragment a = rule.fragment b := by
  have hmeetings : ∀ bound strength, MeetingBound.fragment bound a strength rule =
      MeetingBound.fragment bound b strength rule := fun bound strength => by
    rw [MeetingBound.fragment, MeetingBound.fragment, MeetingBound.least, MeetingBound.least,
      h.minPenalty]
  simp only [Numbered.fragment, h.isSkipped_eq, hmeetings]

theorem Options.AgreeOnRules.statements_eq (h : a.AgreeOnRules b) :
    Numbered.statements a = Numbered.statements b :=
  funext fun rule => by rw [Numbered.statements, Numbered.statements, h.fragment_eq]

theorem Options.AgreeOnRules.check_eq (h : a.AgreeOnRules b) :
    Numbered.check a = Numbered.check b :=
  Numbered.check_eq_of_soft h.soft

theorem Options.AgreeOnRules.charges_eq (h : a.AgreeOnRules b) (t : Tournament) :
    t.charges a = t.charges b := by
  simp only [Tournament.charges, h.fragment_eq]

end Rules

namespace Frame

variable {t : Tournament} {a b options : Options}

theorem sharedArrays_of_agree (h : a.AgreeOnRules b) (t : Tournament) :
    sharedArrays t a = sharedArrays t b := by
  have hshared : sharedArray t a = sharedArray t b := by
    funext kind
    rw [sharedArray, sharedArray, h.minPenalty]
  rw [sharedArrays, sharedArrays, hshared, h.soft]

/-- A structural constraint with a title, exactly or as an upper bound. -/
theorem reframed_titled {title name : String} {foralls : List Index} {lhs rhs : Linear}
    (h : name ∈ ["c1", "c2", "c3", "c4"]) (a b : Options) :
    Program.Reframed (exactly a) (exactly b)
      (titled title [.subto ⟨name, foralls, [⟨lhs, exactly a, rhs⟩]⟩])
      (titled title [.subto ⟨name, foralls, [⟨lhs, exactly b, rhs⟩]⟩]) := by
  have hblock : Subto.isStructural ⟨name, foralls, [⟨lhs, .eq, rhs⟩]⟩ = true := decide_eq_true h
  exact ((Program.Reframed.nil.related hblock).same _).same _

theorem reframed_schedule (a b : Options) :
    Program.Reframed (exactly a) (exactly b) (schedule a) (schedule b) :=
  ((reframed_titled (by decide) a b).append (reframed_titled (by decide) a b)).append
    (reframed_titled (by decide) a b)

theorem reframed_fixedCount (a b : Options) :
    Program.Reframed (exactly a) (exactly b) (fixedCount a) (fixedCount b) :=
  have hpart : Program.IsOptional (fixedCount { fixGameCount := true }) := .block (by decide)
  .ite hpart hpart (.refl _) _ _

theorem reframed_halves (t : Tournament) (a b : Options) :
    Program.Reframed (exactly a) (exactly b) (halves t a) (halves t b) :=
  have hpart : ∀ options : Options, Program.IsOptional
      (halves { t with phased := true } { options with symmetric := false }) :=
    fun _ => .block (List.mem_of_elem_eq_true rfl)
  .ite (hpart a) (hpart b) (reframed_titled (by decide) a b) _ _

theorem reframed_mirror (a b : Options) :
    Program.Reframed (exactly a) (exactly b) (mirror a) (mirror b) :=
  have hpart : Program.IsOptional (mirror { symmetric := true }) := .block (by decide)
  .ite hpart hpart (.refl _) _ _

theorem isOptional_oddFamilies (t : Tournament) (options : Options) : Program.IsOptional
    ((oddFamilies t options).flatMap fun (name, size) => oddFamily name size) := by
  refine .flatMap fun family h => .oddSets ?_
  show family.1 = "c6" ∨ family.1 = "cos" ++ toString family.2
  unfold oddFamilies at h
  split at h
  · exact nomatch h
  · obtain rfl := List.mem_singleton.mp h
    exact .inl rfl
  · obtain ⟨size, -, rfl⟩ := List.mem_map.mp h
    exact .inr rfl

/-- Frames of a tournament differ in optional parts and in relations. -/
theorem reframed_statements (h : a.AgreeOnRules b) (t : Tournament) :
    Program.Reframed (exactly a) (exactly b) (statements t a) (statements t b) := by
  unfold statements
  rw [sharedArrays_of_agree h]
  refine .append
    (.append (.append (.append (.append (.append (.append (.refl _) ?_) ?_) ?_) (.refl _)) ?_)
    (.refl _)) ?_
  · exact reframed_schedule a b
  · exact reframed_fixedCount a b
  · exact (isOptional_oddFamilies t a).reframed (isOptional_oddFamilies t b)
  · exact reframed_halves t a b
  · exact reframed_mirror a b

end Frame

theorem isOptional_goal (options : Options) (charges : List Linear) :
    Program.IsOptional (goal options charges) := by
  unfold goal
  split
  · exact .objective mostGames
  · split
    · exact .nil
    · refine .append ?_ (.ite (.objective _) _)
      cases options.cutoff with
      | none => exact .nil
      | some cutoff => exact .ite (.cutoff rfl) _

section Blocks

variable {t : Tournament} {options a b : Options} {block other : Subto}

/-- The constraints that a frame has under some options, but for those of odd sets; they are
equations where they may be. -/
def Frame.possibleFixed (t : Tournament) : List Subto :=
  Program.subtos (Frame.schedule {}) ++ Program.subtos (Frame.fixedCount { fixGameCount := true })
    ++ Program.subtos (Frame.breakCount t)
    ++ Program.subtos (Frame.halves { t with phased := true } {})
    ++ Program.subtos (Frame.homeGames t) ++ Program.subtos (Frame.mirror { symmetric := true })

/-- The odd families that a frame has under some options. -/
def Frame.possibleFamilies (t : Tournament) : List (String × Nat) :=
  ("c6", 3) :: Frame.oddFamilies t { oddSets := .all }

/-- The constraints that a frame has under some options. -/
def Frame.possibleBlocks (t : Tournament) : List Subto :=
  Frame.possibleFixed t
    ++ Program.subtos ((Frame.possibleFamilies t).flatMap fun (name, size) =>
      Frame.oddFamily name size)

theorem Frame.sublist_possibleFixed (t : Tournament) :
    ((Frame.possibleFixed t).map (·.name)).Sublist Frame.fixedConstraints := by
  have hbreaks : ((Program.subtos (Frame.breakCount t)).map (·.name)).Sublist ["br_count"] :=
    Frame.sublist_names_ite _ _
  have hhome : ((Program.subtos (Frame.homeGames t)).map (·.name)).Sublist ["hg_count"] :=
    Frame.sublist_names_ite _ _
  simp only [Frame.possibleFixed, List.map_append]
  exact ((((List.Sublist.refl ["c1", "c2", "c3", "f1"]).append hbreaks).append
    (.refl ["c4"])).append hhome).append (.refl ["c5"])

theorem Frame.possibleFamily_cases {family : String × Nat} (h : family ∈ Frame.possibleFamilies t) :
    family.1 = "c6" ∨ ∃ rest, family.1 = "cos" ++ rest := by
  rcases List.mem_cons.mp h with rfl | h
  · exact .inl rfl
  · exact Frame.oddName_cases (List.mem_map_of_mem h)

/-- An odd family shares its name with no other constraint of a frame. -/
theorem Frame.possibleFamily_notMem {family : String × Nat}
    (h : family ∈ Frame.possibleFamilies t) : family.1 ∉ Frame.fixedConstraints := fun hname => by
  have hapart : ∀ name ∈ Frame.fixedConstraints, name ≠ "c6" ∧ Apart name "cos" := by decide
  obtain ⟨hne, hcos⟩ := hapart _ hname
  rcases Frame.possibleFamily_cases h with hsix | ⟨rest, hrest⟩
  · exact hne hsix
  · exact hcos.ne_append hrest

theorem Frame.nodup_possibleBlocks (t : Tournament) :
    ((Frame.possibleBlocks t).map (·.name)).Nodup := by
  have hsix : "c6" ∉ (Frame.oddFamilies t { oddSets := .all }).map (·.1) := fun hname => by
    obtain ⟨family, hfamily, heq⟩ := List.mem_map.mp hname
    obtain ⟨size, -, rfl⟩ := List.mem_map.mp hfamily
    exact (show Apart "c6" "cos" by decide).ne_append heq.symm
  have hodd : ((Frame.possibleFamilies t).map (·.1)).Nodup :=
    List.nodup_cons.mpr ⟨hsix, Frame.nodup_oddNames t { oddSets := .all }⟩
  rw [Frame.possibleBlocks, List.map_append, Frame.names_oddFamilies]
  refine List.Nodup.append ((show Frame.fixedConstraints.Nodup by decide).sublist
    (Frame.sublist_possibleFixed t)) hodd fun name hname hfamily => ?_
  obtain ⟨family, hmem, rfl⟩ := List.mem_map.mp hfamily
  exact Frame.possibleFamily_notMem hmem ((Frame.sublist_possibleFixed t).subset hname)

theorem Zimpl.Subto.framed_eq_self (h : block.isStructural = false) (relation : Relation) :
    block.framed relation = block := if_neg (by simp [h])

theorem Zimpl.Subto.name_framed (relation : Relation) (block : Subto) :
    (block.framed relation).name = block.name := by
  unfold Subto.framed
  split <;> rfl

theorem Zimpl.Subto.framed_row {name : String} (h : name ∈ ["c1", "c2", "c3", "c4"])
    (foralls : List Index) (lhs rhs : Linear) (relation other : Relation) :
    Subto.framed relation ⟨name, foralls, [⟨lhs, other, rhs⟩]⟩ =
      ⟨name, foralls, [⟨lhs, relation, rhs⟩]⟩ :=
  if_pos (decide_eq_true h)

theorem Frame.isStructural_odd {family : String × Nat} (h : family ∈ Frame.possibleFamilies t)
    {foralls : List Index} {rows : List Row} :
    Subto.isStructural ⟨family.1, foralls, rows⟩ = false := by
  have hfixed : ∀ name ∈ ["c1", "c2", "c3", "c4"], name ∈ Frame.fixedConstraints := by decide
  exact decide_eq_false fun hname => Frame.possibleFamily_notMem h (hfixed _ hname)

theorem Frame.mem_possibleFamilies {family : String × Nat}
    (h : family ∈ Frame.oddFamilies t options) : family ∈ Frame.possibleFamilies t := by
  unfold Frame.oddFamilies at h
  split at h
  · exact nomatch h
  · exact List.mem_singleton.mp h ▸ .head _
  · exact .tail _ h

theorem Frame.exists_schedule (h : block ∈ Program.subtos (Frame.schedule options)) :
    ∃ shared ∈ Program.subtos (Frame.schedule {}),
      block = shared.framed (Frame.exactly options) := by
  have hblocks : List.Forall₂ (fun block shared => block = shared.framed (Frame.exactly options))
      (Program.subtos (Frame.schedule options)) (Program.subtos (Frame.schedule {})) :=
    .cons (Subto.framed_row (by decide) ..).symm (.cons (Subto.framed_row (by decide) ..).symm
      (.cons (Subto.framed_row (by decide) ..).symm .nil))
  exact exists_mem_of_forall₂ hblocks block h

/-- Each constraint of a frame is one of those that frames can have, with the relation of its
options. -/
theorem Frame.exists_possible (h : block ∈ Program.subtos (Frame.statements t options)) :
    ∃ shared ∈ Frame.possibleBlocks t, block = shared.framed (Frame.exactly options) := by
  have hfixed : ∀ shared ∈ Frame.possibleFixed t, block = shared.framed (Frame.exactly options) →
      ∃ shared ∈ Frame.possibleBlocks t, block = shared.framed (Frame.exactly options) :=
    fun shared hshared heq => ⟨shared, List.mem_append_left _ hshared, heq⟩
  simp only [Frame.possibleFixed, List.forall_mem_append] at hfixed
  obtain ⟨⟨⟨⟨⟨hschedule, hcount⟩, hbreaks⟩, hhalves⟩, hhome⟩, hmirror⟩ := hfixed
  rcases Frame.mem_subtos.mp h with h | h | h
  · simp only [Frame.gameBlocks, List.mem_append, or_assoc] at h
    rcases h with h | h | h | h | h
    · obtain ⟨shared, hshared, heq⟩ := Frame.exists_schedule h
      exact hschedule shared hshared heq
    · unfold Frame.fixedCount at h
      split at h
      · obtain rfl := List.mem_singleton.mp h
        exact hcount _ (.head _) (Subto.framed_eq_self rfl _).symm
      · cases h
    · obtain ⟨⟨name, size⟩, hfamily, h⟩ := Frame.mem_subtos_oddFamilies.mp h
      have hpossible := Frame.mem_possibleFamilies hfamily
      have hname : block.isStructural = false := by
        obtain rfl := List.mem_singleton.mp h
        exact Frame.isStructural_odd hpossible
      exact ⟨block, List.mem_append_right _ (Frame.mem_subtos_oddFamilies.mpr ⟨_, hpossible, h⟩),
        (Subto.framed_eq_self hname _).symm⟩
    · unfold Frame.halves at h
      split at h
      · obtain rfl := List.mem_singleton.mp h
        exact hhalves _ (.head _) (Subto.framed_row (by decide) ..).symm
      · cases h
    · unfold Frame.mirror at h
      split at h
      · obtain rfl := List.mem_singleton.mp h
        exact hmirror _ (.head _) (Subto.framed_eq_self rfl _).symm
      · cases h
  · refine hbreaks block h (Subto.framed_eq_self ?_ _).symm
    unfold Frame.breakCount at h
    split at h
    · exact List.mem_singleton.mp h ▸ rfl
    · cases h
  · refine hhome block h (Subto.framed_eq_self ?_ _).symm
    dsimp only [Frame.homeGames] at h
    split at h
    · exact List.mem_singleton.mp h ▸ rfl
    · cases h

/-- Constraints of the same name in two frames are the same but for their relations. -/
theorem Frame.exists_shared (h : block ∈ Program.subtos (Frame.statements t a))
    (hother : other ∈ Program.subtos (Frame.statements t b)) (hname : block.name = other.name) :
    ∃ shared : Subto, block = shared.framed (Frame.exactly a) ∧
      other = shared.framed (Frame.exactly b) := by
  obtain ⟨shared, hshared, rfl⟩ := Frame.exists_possible h
  obtain ⟨found, hfound, rfl⟩ := Frame.exists_possible hother
  rw [Subto.name_framed, Subto.name_framed] at hname
  have heq : shared = found :=
    List.inj_on_of_nodup_map (Frame.nodup_possibleBlocks t) hshared hfound hname
  exact ⟨shared, rfl, congrArg (Subto.framed _) heq.symm⟩

/-- A constraint of a rule is none of the structural ones. -/
theorem Numbered.framed_eq_self {rule : Numbered} (h : block ∈ (rule.fragment options).subtos)
    (relation : Relation) : block.framed relation = block := by
  have hstems : ∀ name ∈ ["c1", "c2", "c3", "c4"],
      ¬ rule.rule.kind.stem.toList <+: name.toList := by
    cases rule.rule.kind <;> decide
  refine Subto.framed_eq_self (decide_eq_false fun hname => ?_) relation
  obtain ⟨number, heq⟩ := Numbered.name_of_mem_subtos h
  rw [Numbered.nameWith_eq] at heq
  exact ne_append (hstems _ hname) heq

end Blocks

/-- Two programs of one tournament, under options that agree on its rules. -/
structure Tournament.Reframes (t : Tournament) (a b : Options) (p q : Program) : Prop where
  left : p = Frame.statements t a ++ t.numbered.flatMap (Numbered.statements a) ++
    goal a (t.charges a)
  right : q = Frame.statements t b ++ t.numbered.flatMap (Numbered.statements b) ++
    goal b (t.charges b)
  /-- Each rule adds the same statements and the same charges. -/
  rules : ∀ rule ∈ t.numbered, rule.statements a = rule.statements b
  charges : t.charges a = t.charges b
  /-- The same parameters, the same variables and the same sets, but for odd sets. -/
  declarations : p.filter Statement.declaresPlain = q.filter Statement.declaresPlain
  /-- Both programs have the constraints on when games take place. -/
  schedule : ∀ name ∈ ["c1", "c2", "c3"], name ∈ p.subtos.map (·.name) ∧
    name ∈ q.subtos.map (·.name)
  /-- Constraints of the same name are the same but for the relations of structural ones. The cutoff
  alone depends on more. -/
  blocks : ∀ block ∈ p.subtos, ∀ other ∈ q.subtos, block.name = other.name →
    block.name = "oc1" ∨ ∃ shared : Subto, block = shared.framed (Frame.exactly a) ∧
      other = shared.framed (Frame.exactly b)
  /-- The programs are the same statement by statement but for relations and optional parts. -/
  statements : p.Reframed (Frame.exactly a) (Frame.exactly b) q

namespace Tournament

variable {a b : Options}

theorem names_schedule (t : Tournament) (options : Options) :
    ∀ name ∈ ["c1", "c2", "c3"], name ∈ (Program.subtos (t.program options)).map (·.name) := by
  intro name hname
  have hframe : name ∈ (Program.subtos (Frame.schedule options)).map (·.name) := hname
  obtain ⟨block, hblock, rfl⟩ := List.mem_map.mp hframe
  have hgames : block ∈ Frame.gameBlocks t options := by
    simp only [Frame.gameBlocks, List.append_assoc]
    exact List.mem_append_left _ hblock
  refine List.mem_map_of_mem ?_
  rw [t.subtos_program, List.append_assoc]
  exact List.mem_append_left _ (Frame.mem_subtos.mpr (.inl hgames))

/-- Constraints of the same name under two options. -/
theorem shared_or_cutoff (h : a.AgreeOnRules b) {t : Tournament} {block other : Subto}
    (hblock : block ∈ Program.subtos (t.program a)) (hother : other ∈ Program.subtos (t.program b))
    (hname : block.name = other.name) : block.name = "oc1" ∨
      ∃ shared : Subto, block = shared.framed (Frame.exactly a) ∧
        other = shared.framed (Frame.exactly b) := by
  have hapart : ∀ {options : Options} {framed added : Subto} {rule : Numbered},
      framed ∈ Program.subtos (Frame.statements t options) →
      added ∈ (rule.fragment b).subtos → framed.name ≠ added.name := by
    intro options framed added rule hframed hadded heq
    obtain ⟨number, hnumber⟩ := Numbered.name_of_mem_subtos hadded
    exact Frame.notMem_names_of_nameWith t options rule.rule.kind number
      (hnumber ▸ heq ▸ List.mem_map_of_mem hframed)
  have hrules : (t.numbered.flatMap fun rule => (rule.fragment a).subtos) =
      t.numbered.flatMap fun rule => (rule.fragment b).subtos :=
    List.flatMap_congr fun rule _ => by rw [h.fragment_eq]
  rw [t.subtos_program, hrules, List.mem_append, List.mem_append] at hblock
  rw [t.subtos_program, List.mem_append, List.mem_append] at hother
  -- No name of a rule is one of the frame, so both blocks come from the same part of the programs.
  rcases hblock with (hblock | hblock) | hblock
  · rcases hother with (hother | hother) | hother
    · exact .inr (Frame.exists_shared hblock hother hname)
    · obtain ⟨rule, -, hother⟩ := List.mem_flatMap.mp hother
      exact absurd hname (hapart hblock hother)
    · exact .inl (hname.trans (name_of_mem_cutoff hother))
  · rcases hother with (hother | hother) | hother
    · obtain ⟨rule, -, hblock⟩ := List.mem_flatMap.mp hblock
      exact absurd hname.symm (hapart hother hblock)
    · obtain rfl := List.inj_on_of_nodup_map (Numbered.nodup_names t b) hblock hother hname
      obtain ⟨rule, -, hblock⟩ := List.mem_flatMap.mp hblock
      exact .inr ⟨block, (Numbered.framed_eq_self hblock _).symm,
        (Numbered.framed_eq_self hblock _).symm⟩
    · exact .inl (hname.trans (name_of_mem_cutoff hother))
  · exact .inl (name_of_mem_cutoff hblock)

theorem reframes (h : a.AgreeOnRules b) (t : Tournament) :
    t.Reframes a b (t.program a) (t.program b) := by
  have hstatements : Program.Reframed (Frame.exactly a) (Frame.exactly b) (t.program a)
      (t.program b) := by
    unfold program
    rw [h.statements_eq]
    exact ((Frame.reframed_statements h t).append (.refl _)).append
      ((isOptional_goal a _).reframed (isOptional_goal b _))
  exact
    { left := rfl
      right := rfl
      rules := fun rule _ => congrFun h.statements_eq rule
      charges := h.charges_eq t
      declarations := hstatements.filter_declaresPlain
      schedule := fun name hname => ⟨t.names_schedule a name hname, t.names_schedule b name hname⟩
      blocks := fun _ hblock _ hother => shared_or_cutoff h hblock hother
      statements := hstatements }

/-- Options that agree on the rules formulate a tournament alike: they fail for the same reason, or
their programs differ in frame and goal alone. -/
theorem formulate_reframed (h : a.AgreeOnRules b) (t : Tournament) :
    (∃ failure, t.formulate a = .error failure ∧ t.formulate b = .error failure) ∨
    ∃ p q, t.formulate a = .ok p ∧ t.formulate b = .ok q ∧ t.Reframes a b p q := by
  rw [formulate_eq, formulate_eq, h.check_eq]
  cases t.numbered.forM (Numbered.check b) with
  | error failure => exact .inl ⟨failure, rfl, rfl⟩
  | ok _ => exact .inr ⟨_, _, rfl, rfl, reframes h t⟩

end Tournament

/-- Six teams in two halves with a least number of meetings, breaks and a balance of home games. -/
def reframedTournament : Tournament where
  name := some "Six"
  teams := [0, 1, 2, 3, 4, 5]
  slots := [0, 1, 2, 3, 4, 5, 6, 7, 8, 9]
  phased := true
  rules := [⟨.soft 3, .ga1 ⟨1, 1, [0], [⟨0, 1, Int.zero_ne_one⟩]⟩⟩,
    ⟨.soft 1, .br1 ⟨0, .both, [0, 1], [3]⟩⟩,
    ⟨.hard, .fa2 ⟨1, [2, 3], [9]⟩⟩]

/-- Every option but those on rules differs. -/
theorem formulate_reframedTournament :
    let framed : Options := { oddSets := .three, cutoff := some ⟨4, 1⟩ }
    let other : Options :=
      { symmetric := true, feasibility := true, oddSets := .all, fixGameCount := true }
    framed.AgreeOnRules other ∧
    ((∃ failure, reframedTournament.formulate framed = .error failure ∧
      reframedTournament.formulate other = .error failure) ∨
    ∃ p q, reframedTournament.formulate framed = .ok p ∧
      reframedTournament.formulate other = .ok q ∧ reframedTournament.Reframes framed other p q) :=
  have hagree : Options.AgreeOnRules { oddSets := .three, cutoff := some ⟨4, 1⟩ }
    { symmetric := true, feasibility := true, oddSets := .all, fixGameCount := true } := ⟨rfl, rfl⟩
  ⟨hagree, Tournament.formulate_reframed hagree reframedTournament⟩

end RoundRobin
