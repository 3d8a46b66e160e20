import RoundRobin.Proofs.Zimpl.Context

/-! Mentions of names. A part of a program binds symbols in its indices and uses symbols,
parameters, sets and variables. What it uses is declared or bound, if it is scoped. -/

namespace RoundRobin.Zimpl

/-- A name as it stands in a part of a program. -/
inductive Mention where
  /-- A symbol that an index binds. -/
  | bound (symbol : String)
  /-- A symbol, a parameter, a set, a family of sets or a variable that a term refers to. -/
  | used (name : String)
deriving DecidableEq, Repr

def Mention.name : Mention → String
  | .bound symbol => symbol
  | .used name => name

mutual

def Arith.mentions : Arith → List Mention
  | .int _ => []
  | .name symbol => [.used symbol]
  | .add a b | .sub a b | .mul a b | .div a b | .min a b => a.mentions ++ b.mentions
  | .floor a => a.mentions
  | .card set => set.mentions

def Arith.allMentions : List Arith → List Mention
  | [] => []
  | a :: as => a.mentions ++ Arith.allMentions as

def SetTerm.mentions : SetTerm → List Mention
  | .name set => [.used set]
  | .member family index => .used family :: index.mentions
  | .range first last => first.mentions ++ last.mentions
  | .list elements => Arith.allMentions elements
  | .product factors => SetTerm.allMentions factors
  | .minus a b => a.mentions ++ b.mentions
  | .builder index => index.mentions
  | .subsets set _ => set.mentions
  | .indexset family => [.used family]

def SetTerm.allMentions : List SetTerm → List Mention
  | [] => []
  | s :: ss => s.mentions ++ SetTerm.allMentions ss

def Index.mentions : Index → List Mention
  | .mk symbols domain condition => domain.mentions ++ symbols.map .bound ++ condition.mentions

def Condition.mentions : Condition → List Mention
  | .always => []
  | .ne a b | .lt a b => a.mentions ++ b.mentions

end

mutual

def Linear.mentions : Linear → List Mention
  | .const value => value.mentions
  | .var name subscripts => .used name :: Arith.allMentions subscripts
  | .sum terms => Linear.allMentions terms
  | .diff a b => a.mentions ++ b.mentions
  | .scaled factor term => factor.mentions ++ term.mentions
  | .weighted term _ => term.mentions
  | .sumOver index body => index.mentions ++ body.mentions
  | .abs term => term.mentions

def Linear.allMentions : List Linear → List Mention
  | [] => []
  | term :: terms => term.mentions ++ Linear.allMentions terms

end

def Row.mentions (row : Row) : List Mention := row.lhs.mentions ++ row.rhs.mentions

def Subto.mentions (block : Subto) : List Mention :=
  block.foralls.flatMap Index.mentions ++ block.rows.flatMap Row.mentions

def VarIndex.mentions : VarIndex → List Mention
  | .scalar => []
  | .over set => set.mentions
  | .bound index => index.mentions

def VarDecl.mentions (decl : VarDecl) : List Mention :=
  decl.index.mentions ++ (decl.lower.toList ++ decl.upper.toList).flatMap Arith.mentions

def Statement.mentions : Statement → List Mention
  | .comment _ | .blank => []
  | .param _ value => value.mentions
  | .set _ value | .setFamily _ value => value.mentions
  | .var decl => decl.mentions
  | .subto block => block.mentions
  | .objective goal => Linear.allMentions goal.terms

/-- All mentions of names in a program but for those that declare them. -/
def Program.mentions (program : Program) : List Mention := program.flatMap Statement.mentions

/-- The name that a statement declares as a parameter, a set, a family of sets or a variable. -/
def Statement.declaredName? : Statement → Option String
  | .param name _ | .set name _ | .setFamily name _ => some name
  | .var decl => some decl.name
  | .comment _ | .blank | .subto _ | .objective _ => none

/-- The names that a program declares, in order. -/
def Program.declaredNames (program : Program) : List String :=
  program.filterMap Statement.declaredName?

section Terms

attribute [simp] Arith.mentions SetTerm.mentions Index.mentions Condition.mentions Linear.mentions
  Row.mentions Subto.mentions VarIndex.mentions VarDecl.mentions Statement.mentions

@[simp] theorem Arith.mentions_ofNat (n : Nat) :
    (no_index (OfNat.ofNat n) : Arith).mentions = [] := rfl

@[simp] theorem Arith.mentions_add (a b : Arith) :
    (a + b).mentions = a.mentions ++ b.mentions := rfl

@[simp] theorem Arith.mentions_sub (a b : Arith) :
    (a - b).mentions = a.mentions ++ b.mentions := rfl

@[simp] theorem Arith.mentions_mul (a b : Arith) :
    (a * b).mentions = a.mentions ++ b.mentions := rfl

@[simp] theorem Arith.mentions_div (a b : Arith) :
    (a / b).mentions = a.mentions ++ b.mentions := rfl

@[simp] theorem Arith.allMentions_eq_flatMap (terms : List Arith) :
    Arith.allMentions terms = terms.flatMap Arith.mentions := by
  induction terms with
  | nil => rfl
  | cons term terms ih => rw [Arith.allMentions, ih, List.flatMap_cons]

@[simp] theorem SetTerm.allMentions_eq_flatMap (sets : List SetTerm) :
    SetTerm.allMentions sets = sets.flatMap SetTerm.mentions := by
  induction sets with
  | nil => rfl
  | cons set sets ih => rw [SetTerm.allMentions, ih, List.flatMap_cons]

@[simp] theorem Linear.allMentions_eq_flatMap (terms : List Linear) :
    Linear.allMentions terms = terms.flatMap Linear.mentions := by
  induction terms with
  | nil => rfl
  | cons term terms ih => rw [Linear.allMentions, ih, List.flatMap_cons]

@[simp] theorem SetTerm.mentions_ids (ids : List Int) : (SetTerm.ids ids).mentions = [] := by
  simp [SetTerm.ids, List.flatMap_map]

@[simp] theorem SetTerm.mentions_single (symbol : String) :
    (SetTerm.single symbol).mentions = [.used symbol] := rfl

@[simp] theorem Index.mentions_over (symbols : List String) (domain : SetTerm) :
    (Index.over symbols domain).mentions = domain.mentions ++ symbols.map .bound := by
  simp [Index.over]

theorem Linear.flatMap_mentions_summands (term : Linear) :
    term.summands.flatMap Linear.mentions = term.mentions := by
  cases term with
  | sum terms => rw [Linear.summands, Linear.mentions, Linear.allMentions_eq_flatMap]
  | _ => exact List.append_nil _

@[simp] theorem Linear.mentions_plus (terms : List Linear) :
    (Linear.plus terms).mentions = terms.flatMap Linear.mentions :=
  plus_eq_flatMap flatMap_mentions_summands terms

@[simp] theorem Program.mentions_nil : Program.mentions [] = [] := rfl

@[simp] theorem Program.mentions_cons (statement : Statement) (program : Program) :
    Program.mentions (statement :: program) = statement.mentions ++ Program.mentions program := rfl

@[simp] theorem Program.mentions_append (p q : Program) :
    Program.mentions (p ++ q) = Program.mentions p ++ Program.mentions q :=
  List.flatMap_append

end Terms

section Declared

theorem Statement.map_fst_declared {context : Context} {s : Statement}
    {entities : List (String × Entity)} (h : s.declared? context = some entities) :
    entities.map Prod.fst = s.declaredName?.toList := by
  cases s with
  | param _ _ | subto _ | objective _ =>
    simp only [Statement.declared?] at h
    split at h
    · cases h
      rfl
    · nomatch h
  | set _ _ | setFamily _ _ | var _ =>
    simp only [Statement.declared?] at h
    obtain ⟨_, -, rfl⟩ := Option.map_eq_some_iff.mp h
    rfl
  | comment _ | blank =>
    cases h
    rfl

/-- The names of a scoped program are those that its statements declare. -/
theorem Program.map_fst_declared {context : Context} {program : Program}
    {entities : List (String × Entity)} (h : program.declared? context = some entities) :
    entities.map Prod.fst = program.declaredNames := by
  induction program generalizing context entities with
  | nil =>
    cases h
    rfl
  | cons s program ih =>
    obtain ⟨first, hfirst, h⟩ := Option.bind_eq_some_iff.mp h
    obtain ⟨rest, hrest, h⟩ := Option.bind_eq_some_iff.mp h
    obtain rfl : first ++ rest = entities := Option.some.inj h
    rw [List.map_append, s.map_fst_declared hfirst, ih hrest, Program.declaredNames,
      Program.declaredNames, List.filterMap_cons]
    cases s.declaredName? <;> rfl

end Declared

namespace Context

/-- What is used is declared, is bound around the mentions, or is bound by one of them. -/
def Covers (context : Context) (mentions : List Mention) : Prop :=
  ∀ name, .used name ∈ mentions →
    name ∈ context.symbols ∨ (context.entity? name).isSome ∨ .bound name ∈ mentions

variable {context : Context} {mentions more : List Mention} {symbols : List String}

theorem covers_nil (context : Context) : context.Covers [] := fun _ h => nomatch h

theorem Covers.append (h : context.Covers mentions) (h' : context.Covers more) :
    context.Covers (mentions ++ more) := by
  intro name hname
  rcases List.mem_append.mp hname with hname | hname
  · exact (h name hname).imp_right fun h => h.imp_right (List.mem_append_left _)
  · exact (h' name hname).imp_right fun h => h.imp_right (List.mem_append_right _)

theorem covers_used {name : String} (h : name ∈ context.symbols ∨ (context.entity? name).isSome) :
    context.Covers [.used name] := by
  intro found hfound
  obtain rfl := Mention.used.inj (List.mem_singleton.mp hfound)
  exact h.imp_right .inl

theorem covers_flatMap {f : α → List Mention} {items : List α}
    (h : ∀ item ∈ items, context.Covers (f item)) : context.Covers (items.flatMap f) := by
  induction items with
  | nil => exact covers_nil context
  | cons item items ih =>
    obtain ⟨hitem, hitems⟩ := List.forall_mem_cons.mp h
    exact hitem.append (ih hitems)

theorem covers_bound (context : Context) (symbols : List String) :
    context.Covers (symbols.map .bound) := by
  intro name hname
  simp at hname

/-- What is bound before some mentions need not be known around them. -/
theorem Covers.behind {before : List Mention} (hbefore : context.Covers before)
    (hbound : ∀ symbol ∈ symbols, .bound symbol ∈ before)
    (h : (context.bind symbols).Covers mentions) : context.Covers (before ++ mentions) := by
  intro name hname
  rcases List.mem_append.mp hname with hname | hname
  · exact (hbefore name hname).imp_right fun h => h.imp_right (List.mem_append_left _)
  · rcases h name hname with hsymbol | hdeclared | hlater
    · rcases List.mem_append.mp hsymbol with hsymbol | hsymbol
      · exact .inr (.inr (List.mem_append_left _ (hbound name hsymbol)))
      · exact .inl hsymbol
    · exact .inr (.inl hdeclared)
    · exact .inr (.inr (List.mem_append_right _ hlater))

end Context

section Scoped

open Context

variable {context : Context}

theorem covers_of_setDim? {name : String} {dim : Nat} (h : context.setDim? name = some dim) :
    context.Covers [.used name] := by
  refine covers_used (.inr ?_)
  unfold Context.setDim? at h
  cases hentity : context.entity? name with
  | none => simp [hentity] at h
  | some entity => rfl

theorem covers_of_familyDim? {name : String} {dim : Nat} (h : context.familyDim? name = some dim) :
    context.Covers [.used name] := by
  refine covers_used (.inr ?_)
  unfold Context.familyDim? at h
  cases hentity : context.entity? name with
  | none => simp [hentity] at h
  | some entity => rfl

theorem covers_of_admits {name : String} (h : context.admits name = true) :
    context.Covers [.used name] := by
  refine covers_used ?_
  rcases Bool.or_eq_true_iff.mp h with hbound | hparam
  · exact .inl (of_decide_eq_true hbound)
  · exact .inr (by rw [of_decide_eq_true hparam]; rfl)

mutual

theorem Arith.covers : (a : Arith) → (context : Context) → a.scoped context = true →
    context.Covers a.mentions
  | .int _, context, _ => covers_nil context
  | .name _, _, h => covers_of_admits h
  | .add a b, context, h | .sub a b, context, h | .mul a b, context, h | .div a b, context, h
  | .min a b, context, h => by
    obtain ⟨ha, hb⟩ := Bool.and_eq_true_iff.mp h
    exact (a.covers context ha).append (b.covers context hb)
  | .floor a, context, h => a.covers context h
  | .card set, context, h => by
    obtain ⟨dim, hdim⟩ := Option.isSome_iff_exists.mp h
    exact set.covers context dim hdim

theorem Arith.covers_all : (as : List Arith) → (context : Context) →
    Arith.allScoped context as = true → context.Covers (Arith.allMentions as)
  | [], context, _ => covers_nil context
  | a :: as, context, h => by
    obtain ⟨ha, has⟩ := Bool.and_eq_true_iff.mp h
    exact (a.covers context ha).append (Arith.covers_all as context has)

theorem SetTerm.covers : (s : SetTerm) → (context : Context) → (dim : Nat) →
    s.dim? context = some dim → context.Covers s.mentions
  | .name _, _, _, h => covers_of_setDim? h
  | .member family index, context, dim, h => by
    rw [SetTerm.dim?] at h
    split at h
    · rename_i hindex
      exact (covers_of_familyDim? h).append (index.covers context hindex)
    · nomatch h
  | .range first last, context, dim, h => by
    rw [SetTerm.dim?] at h
    split at h
    · rename_i hscoped
      obtain ⟨hfirst, hlast⟩ := Bool.and_eq_true_iff.mp hscoped
      exact (first.covers context hfirst).append (last.covers context hlast)
    · nomatch h
  | .list elements, context, dim, h => by
    rw [SetTerm.dim?] at h
    split at h
    · rename_i hscoped
      exact Arith.covers_all elements context hscoped
    · nomatch h
  | .product factors, context, dim, h => SetTerm.covers_all factors context dim h
  | .minus a b, context, dim, h => by
    obtain ⟨first, ha, h⟩ := Option.bind_eq_some_iff.mp h
    split at h
    · rename_i hb
      exact (a.covers context first ha).append (b.covers context first hb)
    · nomatch h
  | .builder index, context, dim, h => by
    rw [SetTerm.dim?] at h
    split at h
    · rename_i hindex
      exact index.covers context hindex
    · nomatch h
  | .subsets _ _, _, _, h => nomatch h
  | .indexset _, _, _, h => by
    obtain ⟨_, hfamily, -⟩ := Option.map_eq_some_iff.mp h
    exact covers_of_familyDim? hfamily

theorem SetTerm.covers_all : (ss : List SetTerm) → (context : Context) → (dim : Nat) →
    SetTerm.productDim? context ss = some dim → context.Covers (SetTerm.allMentions ss)
  | [], context, _, _ => covers_nil context
  | s :: ss, context, dim, h => by
    obtain ⟨first, hfirst, h⟩ := Option.bind_eq_some_iff.mp h
    obtain ⟨rest, hrest, -⟩ := Option.bind_eq_some_iff.mp h
    exact (s.covers context first hfirst).append (SetTerm.covers_all ss context rest hrest)

theorem Index.covers : (index : Index) → (context : Context) → index.scoped context = true →
    context.Covers index.mentions
  | .mk symbols domain condition, context, h => by
    obtain ⟨hdomain, hcondition⟩ := Bool.and_eq_true_iff.mp h
    have hbefore := (domain.covers context symbols.length (of_decide_eq_true hdomain)).append
      (covers_bound context symbols)
    exact hbefore.behind (fun symbol hsymbol =>
      List.mem_append_right _ (List.mem_map_of_mem hsymbol))
      (condition.covers (context.bind symbols) hcondition)

theorem Condition.covers : (condition : Condition) → (context : Context) →
    condition.scoped context = true → context.Covers condition.mentions
  | .always, context, _ => covers_nil context
  | .ne a b, context, h | .lt a b, context, h => by
    obtain ⟨ha, hb⟩ := Bool.and_eq_true_iff.mp h
    exact (a.covers context ha).append (b.covers context hb)

end

theorem Index.bound_mem_mentions {index : Index} {symbol : String} (h : symbol ∈ index.symbols) :
    .bound symbol ∈ index.mentions := by
  cases index with
  | mk symbols domain condition =>
    exact List.mem_append_left _ (List.mem_append_right _ (List.mem_map_of_mem h))

/-- What an index binds is known behind it. -/
theorem Index.covers_append {index : Index} {mentions : List Mention}
    (hindex : index.scoped context = true) (h : (context.bind index.symbols).Covers mentions) :
    context.Covers (index.mentions ++ mentions) :=
  (index.covers context hindex).behind (fun _ => index.bound_mem_mentions) h

mutual

theorem Linear.covers : (term : Linear) → (context : Context) → term.scoped context = true →
    context.Covers term.mentions
  | .const value, context, h => value.covers context h
  | .var name subscripts, context, h => by
    obtain ⟨hname, hsubscripts⟩ := Bool.and_eq_true_iff.mp h
    have hdeclared : (context.entity? name).isSome := by rw [of_decide_eq_true hname]; rfl
    exact (covers_used (.inr hdeclared)).append (Arith.covers_all subscripts context hsubscripts)
  | .sum terms, context, h => Linear.covers_all terms context h
  | .diff a b, context, h => by
    obtain ⟨ha, hb⟩ := Bool.and_eq_true_iff.mp h
    exact (a.covers context ha).append (b.covers context hb)
  | .scaled factor term, context, h => by
    obtain ⟨hfactor, hterm⟩ := Bool.and_eq_true_iff.mp h
    exact (factor.covers context hfactor).append (term.covers context hterm)
  | .weighted term _, context, h => term.covers context h
  | .sumOver index body, context, h => by
    obtain ⟨hindex, hbody⟩ := Bool.and_eq_true_iff.mp h
    exact Index.covers_append hindex (body.covers _ hbody)
  | .abs term, context, h => term.covers context h

theorem Linear.covers_all : (terms : List Linear) → (context : Context) →
    Linear.allScoped context terms = true → context.Covers (Linear.allMentions terms)
  | [], context, _ => covers_nil context
  | term :: terms, context, h => by
    obtain ⟨hterm, hterms⟩ := Bool.and_eq_true_iff.mp h
    exact (term.covers context hterm).append (Linear.covers_all terms context hterms)

end

/-- What a block of constraints uses is declared or bound in it. -/
theorem Subto.covers {block : Subto} (h : block.scoped context = true) :
    context.Covers block.mentions := by
  have hrows (rows : List Row) : ∀ (indices : List Index) (context : Context),
      Row.scopedUnder context rows indices = true →
      context.Covers (indices.flatMap Index.mentions ++ rows.flatMap Row.mentions) := by
    intro indices
    induction indices with
    | nil =>
      intro context h
      refine covers_flatMap fun row hrow => ?_
      obtain ⟨hlhs, hrhs⟩ := Bool.and_eq_true_iff.mp (List.all_eq_true.mp h row hrow)
      exact (row.lhs.covers context hlhs).append (row.rhs.covers context hrhs)
    | cons index indices ih =>
      intro context h
      obtain ⟨hindex, hindices⟩ := Bool.and_eq_true_iff.mp h
      rw [List.flatMap_cons, List.append_assoc]
      exact Index.covers_append hindex (ih _ hindices)
  exact hrows block.rows block.foralls context h

end Scoped

theorem Program.mem_subtos {block : Subto} {program : Program} :
    block ∈ program.subtos ↔ .subto block ∈ program := by
  rw [Program.subtos, List.mem_filterMap]
  constructor
  · rintro ⟨statement, hstatement, hblock⟩
    cases statement with
    | subto found =>
      obtain rfl := Option.some.inj hblock
      exact hstatement
    | _ => nomatch hblock
  · exact fun h => ⟨_, h, rfl⟩

/-- A block of a scoped program uses only what the program declares and the block binds. -/
theorem Program.covers_subto {block : Subto} {name : String} :
    {program : Program} → {context : Context} → {entities : List (String × Entity)} →
      program.declared? context = some entities → .subto block ∈ program → context.symbols = [] →
      .used name ∈ block.mentions → name ∈ (context.declared ++ entities).map Prod.fst ∨
        .bound name ∈ block.mentions
  | s :: program, context, entities, h, hmem, hsymbols, hname => by
    obtain ⟨first, hfirst, h⟩ := Option.bind_eq_some_iff.mp h
    obtain ⟨rest, hrest, h⟩ := Option.bind_eq_some_iff.mp h
    obtain rfl : first ++ rest = entities := Option.some.inj h
    rcases List.mem_cons.mp hmem with rfl | hmem
    · have hscoped : block.scoped context = true := by
        by_contra hscoped
        rw [Statement.declared?, if_neg hscoped] at hfirst
        exact nomatch hfirst
      rcases Subto.covers hscoped name hname with hsymbol | hdeclared | hbound
      · rw [hsymbols] at hsymbol
        exact nomatch hsymbol
      · obtain ⟨entity, hentity⟩ := Option.isSome_iff_exists.mp hdeclared
        obtain ⟨before, after, hsplit, -⟩ := List.lookup_eq_some_iff.mp hentity
        left
        rw [hsplit]
        simp
      · exact .inr hbound
    · have hlater := Program.covers_subto hrest hmem hsymbols hname
      rwa [Context.add, List.append_assoc] at hlater

end RoundRobin.Zimpl
