import RoundRobin.Proofs.Zimpl.Expansion

/-! How statements extend what the names of a program stand for. A declaration gives its name a
meaning and leaves all other names alone, so what is known of a name stays known behind statements
that declare other names. -/

namespace RoundRobin.Zimpl

/-- `after` agrees with `before` on all names but some. -/
structure Env.Extends (names : List String) (before after : Env) : Prop where
  symbols : after.symbols = before.symbols
  params : ∀ name ∉ names, after.params.lookup name = before.params.lookup name
  sets : ∀ name ∉ names, after.sets.lookup name = before.sets.lookup name
  families : ∀ name ∉ names, after.families.lookup name = before.families.lookup name
  subscripts : ∀ name ∉ names, after.subscripts.lookup name = before.subscripts.lookup name

namespace Env.Extends

variable {names others : List String} {a b c : Env}

theorem refl (env : Env) : env.Extends [] env :=
  ⟨rfl, fun _ _ => rfl, fun _ _ => rfl, fun _ _ => rfl, fun _ _ => rfl⟩

theorem trans (h : a.Extends names b) (h' : b.Extends others c) :
    a.Extends (names ++ others) c := by
  refine ⟨h'.symbols.trans h.symbols, ?_, ?_, ?_, ?_⟩ <;> intro name hname <;>
    rw [List.mem_append, not_or] at hname
  · rw [h'.params name hname.2, h.params name hname.1]
  · rw [h'.sets name hname.2, h.sets name hname.1]
  · rw [h'.families name hname.2, h.families name hname.1]
  · rw [h'.subscripts name hname.2, h.subscripts name hname.1]

theorem value? (h : a.Extends names b) {name : String} (hname : name ∉ names) :
    b.value? name = a.value? name := by
  rw [Env.value?, Env.value?, h.symbols, h.params name hname]

theorem mono (h : a.Extends names b) (hnames : names ⊆ others) : a.Extends others b :=
  ⟨h.symbols, fun name hname => h.params name fun hmem => hname (hnames hmem),
    fun name hname => h.sets name fun hmem => hname (hnames hmem),
    fun name hname => h.families name fun hmem => hname (hnames hmem),
    fun name hname => h.subscripts name fun hmem => hname (hnames hmem)⟩

variable {α : Type} {tuple : α → Tuple} {members : Finset α} {name : String}

theorem lists (h : a.Extends names b) (hname : name ∉ names)
    (hset : (SetTerm.name name).Lists a tuple members) :
    (SetTerm.name name).Lists b tuple members := by
  obtain ⟨order, horder, htuples⟩ := hset
  rw [SetTerm.tuples?, ← h.sets name hname] at htuples
  exact SetTerm.lists_name horder htuples

theorem ranges (h : a.Extends names b) (hname : name ∉ names)
    (hvar : a.Ranges name tuple members) : b.Ranges name tuple members := by
  obtain ⟨order, horder, hlookup⟩ := hvar
  exact ⟨order, horder, by rw [h.subscripts name hname, hlookup]⟩

end Env.Extends

theorem lookup_cons_of_notMem {name other : String} {entries : List (String × β)} {entry : β}
    (h : other ∉ [name]) :
    List.lookup other ((name, entry) :: entries) = List.lookup other entries := by
  rw [List.lookup_cons, beq_eq_false_iff_ne.mpr (by simpa using h)]

/-- A program extends what its names stand for, by some names. -/
structure Program.Adds (names : List String) (program : Program) (before after : Env) : Prop
    extends Env.Extends names before after where
  declares : program.foldlM Statement.declare? before = some after

namespace Program

variable {env : Env} {α : Type} {tuple : α → Tuple} {members : Finset α}

theorem adds_nil (env : Env) : Adds [] [] env env := ⟨.refl env, rfl⟩

theorem Adds.append {names others : List String} {p q : Program} {a b c : Env}
    (h : Adds names p a b) (h' : Adds others q b c) : Adds (names ++ others) (p ++ q) a c := by
  refine ⟨h.toExtends.trans h'.toExtends, ?_⟩
  rw [List.foldlM_append, h.declares]
  exact h'.declares

theorem adds_silent {program : Program} (env : Env)
    (h : ∀ statement ∈ program, ∀ env, statement.declare? env = some env) :
    Adds [] program env env := by
  induction program with
  | nil => exact adds_nil env
  | cons statement program ih =>
    refine ⟨.refl env, ?_⟩
    rw [List.foldlM_cons, h statement (.head _) env]
    exact (ih fun other hother => h other (.tail _ hother)).declares

theorem Adds.mono {names others : List String} {p : Program} {a b : Env} (h : Adds names p a b)
    (hnames : names ⊆ others) : Adds others p a b :=
  ⟨h.toExtends.mono hnames, h.declares⟩

theorem adds_param (name : String) {value : Arith} {number : Rat}
    (h : value.value? env = some number) :
    ∃ after, Adds [name] [.param name value] env after ∧
      after.params.lookup name = some number := by
  refine ⟨{ env with params := (name, number) :: env.params }, ⟨⟨rfl,
    fun _ h => lookup_cons_of_notMem h, fun _ _ => rfl, fun _ _ => rfl, fun _ _ => rfl⟩, ?_⟩,
    List.lookup_cons_self⟩
  rw [List.foldlM_cons, Statement.declare?, h]
  rfl

theorem adds_tuples (name : String) {set : SetTerm} {tuples : List Tuple}
    (h : set.tuples? env = some tuples) :
    ∃ after, Adds [name] [.set name set] env after ∧ after.sets.lookup name = some tuples := by
  refine ⟨{ env with sets := (name, tuples) :: env.sets }, ⟨⟨rfl, fun _ _ => rfl,
    fun _ h => lookup_cons_of_notMem h, fun _ _ => rfl, fun _ _ => rfl⟩, ?_⟩,
    List.lookup_cons_self⟩
  rw [List.foldlM_cons, Statement.declare?, h]
  rfl

theorem adds_set (name : String) {set : SetTerm} (h : set.Lists env tuple members) :
    ∃ after, Adds [name] [.set name set] env after ∧
      (SetTerm.name name).Lists after tuple members := by
  obtain ⟨order, horder, htuples⟩ := h
  obtain ⟨after, hadds, hlookup⟩ := adds_tuples name htuples
  exact ⟨after, hadds, SetTerm.lists_name horder hlookup⟩

theorem adds_setFamily (name : String) (size : Nat) {set : SetTerm} {order : List α}
    (h : set.tuples? env = some (order.map tuple)) :
    ∃ after, Adds [name] [.setFamily name (.subsets set size)] env after ∧
      after.families.lookup name = some (sublistsOf size (order.map tuple)) := by
  refine ⟨{ env with families := (name, sublistsOf size (order.map tuple)) :: env.families },
    ⟨⟨rfl, fun _ _ => rfl, fun _ _ => rfl, fun _ h => lookup_cons_of_notMem h, fun _ _ => rfl⟩,
      ?_⟩, List.lookup_cons_self⟩
  rw [List.foldlM_cons, Statement.declare?, SetTerm.members?, h]
  rfl

variable {domain : VarDomain} {lower upper : Option Arith}

theorem adds_var (name : String) {index : VarIndex} {inner : α → Env} {order : List α}
    (horder : Listing order members)
    (h : index.select? env = some (order.map fun a => (tuple a, inner a))) :
    ∃ after, Adds [name] [.var ⟨name, index, domain, lower, upper⟩] env after ∧
      after.Ranges name tuple members := by
  refine ⟨{ env with subscripts := (name, order.map tuple) :: env.subscripts },
    ⟨⟨rfl, fun _ _ => rfl, fun _ _ => rfl, fun _ _ => rfl, fun _ h => lookup_cons_of_notMem h⟩,
      ?_⟩, order, horder, List.lookup_cons_self⟩
  rw [List.foldlM_cons, Statement.declare?, h]
  show some { env with subscripts := (name, List.map _ (List.map _ _)) :: env.subscripts } = _
  rw [List.map_map]
  rfl

theorem adds_var_over (name : String) {set : SetTerm} (h : set.Lists env tuple members) :
    ∃ after, Adds [name] [.var ⟨name, .over set, domain, lower, upper⟩] env after ∧
      after.Ranges name tuple members := by
  obtain ⟨order, horder, hselect⟩ := h.select?_over
  exact adds_var name horder hselect

theorem adds_var_bound (name : String) {index : Index} {inner : α → Env}
    (h : index.Runs env tuple inner members) :
    ∃ after, Adds [name] [.var ⟨name, .bound index, domain, lower, upper⟩] env after ∧
      after.Ranges name tuple members := by
  obtain ⟨order, horder, hselect⟩ := h
  exact adds_var name horder hselect

theorem adds_var_scalar (name : String) (env : Env) :
    ∃ after, Adds [name] [.var ⟨name, .scalar, domain, lower, upper⟩] env after ∧
      after.Ranges name (fun _ : Unit => []) Finset.univ := by
  have horder : Listing [()] Finset.univ := ⟨List.nodup_singleton (), fun a => by simp⟩
  have hselect : VarIndex.select? env .scalar = some ([()].map fun _ => ([], env)) := rfl
  exact adds_var name horder hselect

end Program

end RoundRobin.Zimpl
