import RoundRobin.Proofs.Zimpl.Declaration

/-! Occurrences of variables. With all its indices expanded, a term refers to variables at tuples of
numbers. Where a term has a value, these are among the subscripts that the variables are declared
with. -/

namespace RoundRobin.Zimpl

/-- A variable at a tuple of numbers. -/
abbrev Occurrence := String × Tuple

mutual

/-- The variables to which a term refers, with its indices expanded. -/
def Linear.occurrences? (env : Env) : Linear → Option (List Occurrence)
  | .const _ => some []
  | .var name subscripts => do return [(name, ← Arith.values? env subscripts)]
  | .sum terms => Linear.allOccurrences? env terms
  | .diff a b => do return (← a.occurrences? env) ++ (← b.occurrences? env)
  | .scaled _ term => term.occurrences? env
  | .weighted term _ => term.occurrences? env
  | .sumOver index body => do
    let found ← (← index.expand? env).mapM fun env => body.occurrences? env
    return found.flatten
  | .abs term => term.occurrences? env

def Linear.allOccurrences? (env : Env) : List Linear → Option (List Occurrence)
  | [] => some []
  | term :: terms => do return (← term.occurrences? env) ++ (← Linear.allOccurrences? env terms)

end

def Row.sides (row : Row) : List Linear := [row.lhs, row.rhs]

def Subto.occurrences? (env : Env) (block : Subto) : Option (List Occurrence) := do
  let found ← (← Index.expandAll? env block.foralls).mapM fun env =>
    Linear.allOccurrences? env (block.rows.flatMap Row.sides)
  return found.flatten

def Objective.occurrences? (env : Env) (goal : Objective) : Option (List Occurrence) :=
  Linear.allOccurrences? env goal.terms

/-- The variables to which the rows and the objectives of a program refer. -/
def Program.occurrences? (program : Program) : Option (List Occurrence) := do
  let env ← program.env?
  let rows ← program.subtos.mapM fun block => block.occurrences? env
  let goals ← program.objectives.mapM fun goal => goal.occurrences? env
  return rows.flatten ++ goals.flatten

/-- A list is found, and all its members meet a condition. -/
def Everywhere (p : α → Prop) (found : Option (List α)) : Prop :=
  ∃ results ∈ found, ∀ a ∈ results, p a

namespace Everywhere

variable {p : α → Prop}

theorem nil : Everywhere p (some []) := ⟨[], rfl, fun _ h => nomatch h⟩

theorem single {a : α} (h : p a) : Everywhere p (some [a]) :=
  ⟨[a], rfl, List.forall_mem_singleton.mpr h⟩

theorem append {a b : Option (List α)} (ha : Everywhere p a) (hb : Everywhere p b) :
    Everywhere p (do return (← a) ++ (← b)) := by
  obtain ⟨as, rfl, ha⟩ := ha
  obtain ⟨bs, rfl, hb⟩ := hb
  exact ⟨as ++ bs, rfl, List.forall_mem_append.mpr ⟨ha, hb⟩⟩

theorem flatten_iff {step : β → Option (List α)} {items : List β} :
    Everywhere p (do return (← items.mapM step).flatten) ↔
      ∀ item ∈ items, Everywhere p (step item) := by
  refine Iff.trans ?_ (exists_mem_mapM_flatten items)
  cases items.mapM step <;> exact Iff.rfl

theorem mono {q : α → Prop} {found : Option (List α)} (h : Everywhere p found)
    (hpq : ∀ a, p a → q a) : Everywhere q found := by
  obtain ⟨results, hfound, hall⟩ := h
  exact ⟨results, hfound, fun a ha => hpq a (hall a ha)⟩

end Everywhere

/-- A variable is declared with some subscripts. -/
def Env.Has (env : Env) (occurrence : Occurrence) : Prop :=
  occurrence.2 ∈ (env.subscripts.lookup occurrence.1).getD []

namespace Env

theorem subscripts_of_bind? : {symbols : List String} → {tuple : Tuple} → {env inner : Env} →
    env.bind? symbols tuple = some inner → inner.subscripts = env.subscripts
  | [], [], _, _, h => by rw [← Option.some.inj h]
  | [], _ :: _, _, _, h => nomatch h
  | _ :: _, [], _, _, h => nomatch h
  | symbol :: symbols, value :: values, env, inner, h => by
    cases hbound : env.symbols.lookup symbol with
    | none =>
      rw [bind?_free hbound] at h
      have hrest := subscripts_of_bind? h
      exact hrest
    | some bound =>
      rw [bind?_bound hbound] at h
      split at h
      · exact subscripts_of_bind? h
      · exact nomatch h

end Env

namespace Index

variable {env : Env} {index : Index}

/-- An index binds symbols only. -/
theorem subscripts_of_select? {selected : List (Tuple × Env)}
    (h : index.select? env = some selected) :
    ∀ place ∈ selected, place.2.subscripts = env.subscripts := by
  obtain ⟨symbols, domain, condition⟩ := index
  rw [select?] at h
  obtain ⟨tuples, -, h⟩ := Option.bind_eq_some_iff.mp h
  dsimp only at h
  split at h
  · cases h
  · obtain ⟨chosen, hchosen, h⟩ := Option.bind_eq_some_iff.mp h
    obtain rfl := Option.some.inj h
    intro place hplace
    obtain ⟨kept, hkept, rfl⟩ := List.mem_filterMap.mp hplace
    obtain ⟨bound, hbound, hholds⟩ := exists_of_mem_mapM_some hchosen _ hkept
    obtain ⟨tuple, -, hbind⟩ := List.mem_filterMap.mp hbound
    obtain ⟨inner, hinner, rfl⟩ := Option.map_eq_some_iff.mp hbind
    obtain ⟨holds, -, hplace⟩ := Option.map_eq_some_iff.mp hholds
    split at hplace
    · obtain rfl := Option.some.inj hplace
      exact Env.subscripts_of_bind? hinner
    · cases hplace

theorem subscripts_of_expand? {envs : List Env} (h : index.expand? env = some envs) :
    ∀ inner ∈ envs, inner.subscripts = env.subscripts := by
  obtain ⟨selected, hselected, rfl⟩ := Option.map_eq_some_iff.mp h
  exact List.forall_mem_map.mpr (subscripts_of_select? hselected)

theorem Runs.subscripts {inner : α → Env} {tuple : α → Tuple} {members : Finset α}
    (h : index.Runs env tuple inner members) :
    ∀ a ∈ members, (inner a).subscripts = env.subscripts := by
  obtain ⟨order, horder, hselect⟩ := h
  exact fun a ha => subscripts_of_select? hselect (tuple a, inner a)
    (List.mem_map_of_mem ((horder.mem_iff a).mpr ha))

end Index

theorem Env.has_congr {a b : Env} (h : a.subscripts = b.subscripts) : a.Has = b.Has := by
  funext occurrence
  rw [Env.Has, Env.Has, h]

mutual

/-- A term that has a value refers to declared subscripts only. -/
theorem Linear.has_of_value? {env : Env} {values : Assignment} :
    (term : Linear) → {value : Rat} → term.value? env values = some value →
      Everywhere env.Has (term.occurrences? env)
  | .const _, _, _ => .nil
  | .var name subscripts, value, h => by
    rw [Linear.value?] at h
    obtain ⟨tuple, htuple, h⟩ := Option.bind_eq_some_iff.mp h
    rw [Linear.occurrences?, htuple]
    refine .single ?_
    by_contra hnone
    rw [Env.Has] at hnone
    rw [if_neg hnone] at h
    exact nomatch h
  | .sum terms, _, h => Linear.has_of_sumOf? terms h
  | .diff a b, _, h => by
    rw [Linear.value?] at h
    obtain ⟨p, hp, h⟩ := Option.bind_eq_some_iff.mp h
    obtain ⟨q, hq, -⟩ := Option.bind_eq_some_iff.mp h
    exact (Linear.has_of_value? a hp).append (Linear.has_of_value? b hq)
  | .scaled _ term, _, h => by
    rw [Linear.value?] at h
    obtain ⟨_, -, h⟩ := Option.bind_eq_some_iff.mp h
    obtain ⟨p, hp, -⟩ := Option.bind_eq_some_iff.mp h
    exact Linear.has_of_value? term hp
  | .weighted term _, _, h => by
    rw [Linear.value?] at h
    obtain ⟨p, hp, -⟩ := Option.bind_eq_some_iff.mp h
    exact Linear.has_of_value? term hp
  | .sumOver index body, _, h => by
    rw [Linear.value?] at h
    obtain ⟨envs, henvs, h⟩ := Option.bind_eq_some_iff.mp h
    obtain ⟨terms, hterms, -⟩ := Option.bind_eq_some_iff.mp h
    rw [Linear.occurrences?, henvs]
    refine Everywhere.flatten_iff.mpr fun inner hinner => ?_
    obtain ⟨p, hp⟩ := exists_eq_some_of_mapM hterms inner hinner
    rw [← Env.has_congr (Index.subscripts_of_expand? henvs inner hinner)]
    exact Linear.has_of_value? body hp
  | .abs term, _, h => by
    rw [Linear.value?] at h
    obtain ⟨p, hp, -⟩ := Option.bind_eq_some_iff.mp h
    exact Linear.has_of_value? term hp

theorem Linear.has_of_sumOf? {env : Env} {values : Assignment} :
    (terms : List Linear) → {value : Rat} → Linear.sumOf? env values terms = some value →
      Everywhere env.Has (Linear.allOccurrences? env terms)
  | [], _, _ => .nil
  | term :: terms, _, h => by
    rw [Linear.sumOf?] at h
    obtain ⟨p, hp, h⟩ := Option.bind_eq_some_iff.mp h
    obtain ⟨q, hq, -⟩ := Option.bind_eq_some_iff.mp h
    exact (Linear.has_of_value? term hp).append (Linear.has_of_sumOf? terms hq)

end

/-- A sum has a value only where all its terms have one. -/
theorem Linear.exists_value?_of_sumOf? {env : Env} {values : Assignment} {terms : List Linear}
    {total : Rat} (h : Linear.sumOf? env values terms = some total) :
    ∀ term ∈ terms, ∃ value, term.value? env values = some value := by
  induction terms generalizing total with
  | nil => exact fun _ h => nomatch h
  | cons term terms ih =>
    rw [Linear.sumOf?] at h
    obtain ⟨p, hp, h⟩ := Option.bind_eq_some_iff.mp h
    obtain ⟨q, hq, -⟩ := Option.bind_eq_some_iff.mp h
    exact List.forall_mem_cons.mpr ⟨⟨p, hp⟩, ih hq⟩

/-- A sum over an index has a value only where the term has one at each member. -/
theorem Index.Runs.exists_value? {env : Env} {values : Assignment} {index : Index} {body : Linear}
    {tuple : α → Tuple} {inner : α → Env} {members : Finset α}
    (hruns : index.Runs env tuple inner members) {total : Rat}
    (h : (Linear.sumOver index body).value? env values = some total) :
    ∀ a ∈ members, ∃ value, body.value? (inner a) values = some value := by
  obtain ⟨order, horder, hexpand⟩ := hruns.expand?
  rw [Linear.value?] at h
  obtain ⟨envs, henvs, h⟩ := Option.bind_eq_some_iff.mp h
  obtain rfl := Option.some.inj (hexpand.symm.trans henvs)
  obtain ⟨terms, hterms, -⟩ := Option.bind_eq_some_iff.mp h
  exact fun a ha => exists_eq_some_of_mapM hterms (inner a)
    (List.mem_map_of_mem ((horder.mem_iff a).mpr ha))

/-- With its indices expanded, a block refers to declared subscripts only. -/
def Subto.Within (env : Env) (block : Subto) : Prop := Everywhere env.Has (block.occurrences? env)

namespace Subto

variable {env : Env} {name : String} {rows : List Row}

theorem within_iff {block : Subto} : block.Within env ↔
    ∃ envs ∈ Index.expandAll? env block.foralls, ∀ inner ∈ envs,
      Everywhere env.Has (Linear.allOccurrences? inner (block.rows.flatMap Row.sides)) := by
  rw [Within, occurrences?]
  cases Index.expandAll? env block.foralls with
  | none => simp [Everywhere]
  | some envs =>
    simp only [Option.mem_some_iff, exists_eq_left']
    exact Everywhere.flatten_iff

theorem within_nil : Subto.Within env ⟨name, [], []⟩ :=
  within_iff.mpr ⟨[env], rfl, List.forall_mem_singleton.mpr .nil⟩

theorem within_cons {values : Assignment} {row : Row} {a b : Rat}
    (ha : row.lhs.value? env values = some a) (hb : row.rhs.value? env values = some b)
    (h : Subto.Within env ⟨name, [], rows⟩) : Subto.Within env ⟨name, [], row :: rows⟩ := by
  obtain ⟨_, hnone, hrest⟩ := within_iff.mp h
  obtain rfl := Option.some.inj hnone
  have hrows : Everywhere env.Has (Linear.allOccurrences? env (rows.flatMap Row.sides)) :=
    hrest env (.head _)
  refine within_iff.mpr ⟨[env], rfl, List.forall_mem_singleton.mpr ?_⟩
  exact (Linear.has_of_value? row.lhs ha).append ((Linear.has_of_value? row.rhs hb).append hrows)

theorem within_row {values : Assignment} {row : Row} {a b : Rat}
    (ha : row.lhs.value? env values = some a) (hb : row.rhs.value? env values = some b) :
    Subto.Within env ⟨name, [], [row]⟩ :=
  within_cons ha hb within_nil

theorem within_forall {index : Index} {indices : List Index} {tuple : α → Tuple} {inner : α → Env}
    {members : Finset α} (hruns : index.Runs env tuple inner members)
    (h : ∀ a ∈ members, Subto.Within (inner a) ⟨name, indices, rows⟩) :
    Subto.Within env ⟨name, index :: indices, rows⟩ := by
  refine within_iff.mpr (hruns.exists_mem_expandAll?.mpr fun a ha => ?_)
  rw [← Env.has_congr (hruns.subscripts a ha)]
  exact within_iff.mp (h a ha)

end Subto

/-- Only a declaration of a variable adds subscripts. -/
theorem Statement.has_of_declare? {statement : Statement} {env after : Env}
    {occurrence : Occurrence} (h : statement.declare? env = some after)
    (hhas : after.Has occurrence) : env.Has occurrence ∨
      ∃ decl, statement = .var decl ∧ decl.name = occurrence.1 ∧
        ∃ selected ∈ decl.index.select? env, occurrence.2 ∈ selected.map Prod.fst := by
  cases statement with
  | comment text | blank | subto block | objective goal =>
    obtain rfl := Option.some.inj h
    exact .inl hhas
  | param name value | set name value | setFamily name value =>
    obtain ⟨_, -, h⟩ := Option.bind_eq_some_iff.mp h
    obtain rfl := Option.some.inj h
    exact .inl hhas
  | var decl =>
    obtain ⟨selected, hselected, h⟩ := Option.bind_eq_some_iff.mp h
    obtain rfl := Option.some.inj h
    rw [Env.Has, List.lookup_cons] at hhas
    split at hhas
    · rename_i hname
      exact .inr ⟨decl, rfl, (beq_iff_eq.mp hname).symm, selected, hselected, hhas⟩
    · exact .inl hhas

namespace Program

/-- A statement of a program declares a variable with some subscripts, by what the names that are
declared before it stand for. -/
def Declares (program : Program) (occurrence : Occurrence) : Prop :=
  ∃ before decl after, program = before ++ .var decl :: after ∧ decl.name = occurrence.1 ∧
    ∃ env ∈ env? before, ∃ selected ∈ decl.index.select? env, occurrence.2 ∈ selected.map Prod.fst

theorem Declares.append {program : Program} {occurrence : Occurrence}
    (h : program.Declares occurrence) (more : Program) : Declares (program ++ more) occurrence := by
  obtain ⟨before, decl, after, rfl, h⟩ := h
  exact ⟨before, decl, after ++ more, by simp, h⟩

/-- The subscripts that the variables of a program have values for are those that they are declared
with. -/
theorem declares_of_has {program : Program} {env : Env} (h : program.env? = some env)
    {occurrence : Occurrence} (hhas : env.Has occurrence) : program.Declares occurrence := by
  induction program using List.reverseRecOn generalizing env with
  | nil =>
    obtain rfl := Option.some.inj h
    exact nomatch hhas
  | append_singleton program statement ih =>
    rw [env?, List.foldlM_append] at h
    obtain ⟨earlier, hearlier, h⟩ := Option.bind_eq_some_iff.mp h
    rw [List.foldlM_cons] at h
    obtain ⟨later, hlater, h⟩ := Option.bind_eq_some_iff.mp h
    obtain rfl := Option.some.inj h
    rcases Statement.has_of_declare? hlater hhas with hhas | ⟨decl, rfl, hname, hselected⟩
    · exact (ih hearlier hhas).append [statement]
    · exact ⟨program, decl, [], rfl, hname, earlier, hearlier, hselected⟩

/-- A program refers to declared subscripts only if its blocks and objectives do. -/
theorem everywhere_occurrences? {program : Program} {env : Env} (h : program.env? = some env)
    (hrows : ∀ block ∈ program.subtos, block.Within env)
    (hgoals : ∀ goal ∈ program.objectives, Everywhere env.Has (goal.occurrences? env)) :
    Everywhere env.Has program.occurrences? := by
  obtain ⟨_, hfound, hrows⟩ := (exists_mem_mapM_flatten program.subtos).mpr hrows
  obtain ⟨_, hfound', hgoals⟩ := (exists_mem_mapM_flatten program.objectives).mpr hgoals
  obtain ⟨rows, hrowsFound, rfl⟩ := Option.map_eq_some_iff.mp hfound
  obtain ⟨goals, hgoalsFound, rfl⟩ := Option.map_eq_some_iff.mp hfound'
  refine ⟨rows.flatten ++ goals.flatten, ?_, List.forall_mem_append.mpr ⟨hrows, hgoals⟩⟩
  rw [occurrences?, h, Option.bind_eq_bind, Option.bind_some, hrowsFound, Option.bind_eq_bind,
    Option.bind_some, hgoalsFound]
  rfl

end Program

end RoundRobin.Zimpl
