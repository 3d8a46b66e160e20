import Mathlib
import RoundRobin.Proofs.Written.Statement

/-! Legible statements read back: what they declare as it stands, their rows and objectives by their
values. -/

namespace RoundRobin.Zimpl

open Written

variable {vars : List String} {level : Nat} {rest : List Token}

theorem arith_exact {value : Arith} (h : value.exact vars = true)
    (hlength : value.tokens.length < level) (hrest : AvoidsOperators rest) :
    (grammar vars level).arith (value.tokens ++ rest) = some (value, rest) := by
  simp only [Arith.exact, Bool.and_eq_true, decide_eq_true_eq] at h
  have harith := (value.reads h.1).arith hlength hrest
  rwa [h.2] at harith

theorem set_exact {value : SetTerm} (h : value.exact vars = true)
    (hlength : value.tokens.length < level) (hrest : Avoids ['[', '*', '\\'] rest) :
    (grammar vars level).set (value.tokens ++ rest) = some (value, rest) := by
  simp only [SetTerm.exact, Bool.and_eq_true, decide_eq_true_eq] at h
  have hset := (value.reads h.1).whole hlength hrest
  rwa [h.2] at hset

theorem index_exact {index : Index} (h : index.exact vars = true)
    (hlength : index.tokens.length < level) {c : Char} (hc : c ∈ indexEnds) (rest : List Token) :
    (grammar vars level).index (index.tokens ++ .symbol c :: rest) =
      some (index, .symbol c :: rest) := by
  simp only [Index.exact, Bool.and_eq_true, decide_eq_true_eq] at h
  have hindex := index.reads h.1 level rest hlength c hc
  rwa [h.2] at hindex

theorem definition_eq {α : Type} {item : Reader α} (tokens : List Token) :
    definition item (.symbol ':' :: .symbol '=' :: tokens) = item tokens := by
  simp [definition]

section Declarations

theorem paramReader_eq (level : Nat) {name : String} {value : Arith} (hname : isName name = true)
    (h : value.exact vars = true) (hlength : value.tokens.length < level) :
    paramReader (grammar vars level) (.word name :: .symbol ':' :: .symbol '=' :: value.tokens) =
      some (.param name value, []) := by
  have harith := arith_exact h hlength (avoids_nil _)
  rw [List.append_nil] at harith
  simp [paramReader, nameReader_word hname, mapped, definition_eq, harith]

theorem setReader_set (level : Nat) {name : String} {value : SetTerm} (hname : isName name = true)
    (h : value.exact vars = true) (hlength : value.tokens.length < level) :
    setReader (grammar vars level) (.word name :: .symbol ':' :: .symbol '=' :: value.tokens) =
      some (.set name value, []) := by
  have hset := set_exact h hlength (avoids_nil _)
  rw [List.append_nil] at hset
  simp [setReader, nameReader_word hname, mapped, definition_eq, hset]

theorem setReader_family (level : Nat) {name : String} {value : SetTerm}
    (hname : isName name = true)
    (h : value.exact vars = true) (hlength : value.tokens.length < level) :
    setReader (grammar vars level) (.word name :: .symbol '[' :: .symbol ']' :: .symbol ':' ::
      .symbol '=' :: value.tokens) = some (.setFamily name value, []) := by
  have hset := set_exact h hlength (avoids_nil _)
  rw [List.append_nil] at hset
  simp [setReader, nameReader_word hname, mapped, definition_eq, hset]

/-- No set starts with an angle. -/
theorem varIndexReader_of_set {tokens : List Token} {value : SetTerm}
    (h : (grammar vars level).set tokens = some (value, .symbol ']' :: rest)) :
    varIndexReader (grammar vars level) (.symbol '[' :: tokens) = some (.over value, rest) := by
  have hangle : ∀ tokens, (grammar vars level).set (.symbol '<' :: tokens) = none := by
    intro tokens
    cases level <;> rfl
  have htail : ∀ behind, tokens ≠ .symbol '<' :: behind := by
    rintro behind rfl
    rw [hangle] at h
    nomatch h
  simp [varIndexReader, mapped_eq (closing_eq h)]

theorem varIndexReader_eq {index : VarIndex} (h : index.exact vars = true)
    (hlength : index.tokens.length ≤ level) (hrest : Avoids ['['] rest) :
    varIndexReader (grammar vars level) (index.tokens ++ rest) = some (index, rest) := by
  match index, h with
  | .scalar, _ =>
    rw [VarIndex.tokens, List.nil_append]
    unfold varIndexReader
    split
    · exact absurd rfl (hrest '[' (by decide))
    · exact absurd rfl (hrest '[' (by decide))
    · rfl
  | .over set, h =>
    have hlength : set.tokens.length < level := by
      simp only [VarIndex.tokens, List.length_append, List.length_cons] at hlength
      omega
    have hset := set_exact h hlength (avoids_symbol (c := ']') (by decide) rest)
    simpa [VarIndex.tokens] using varIndexReader_of_set hset
  | .bound index, h =>
    have hlength : index.tokens.length < level := by
      simp only [VarIndex.tokens, List.length_append, List.length_cons] at hlength
      omega
    have hindex := closing_eq (index_exact h hlength (c := ']') (by decide) rest)
    obtain ⟨symbols, domain, condition⟩ := index
    have hbound := mapped_eq (f := VarIndex.bound) hindex
    simpa [VarIndex.tokens, Index.tokens, varIndexReader] using hbound

theorem varDomainReader_eq (domain : VarDomain) (hrest : ∀ name, rest.head? ≠ some (.word name)) :
    varDomainReader (domain.tokens ++ rest) = some (domain, rest) := by
  cases domain with
  | binary | integer => rfl
  | real =>
    rw [VarDomain.tokens, List.nil_append]
    unfold varDomainReader
    split
    · exact absurd rfl (hrest "binary")
    · exact absurd rfl (hrest "integer")
    · rfl

theorem boundReader_ge {bound : Option Arith} (h : bound.all (·.exact vars) = true)
    (hlength : (boundTokens .ge bound).length ≤ level) (hrest : AvoidsOperators rest)
    (hsign : rest.head? ≠ some (.symbol '>')) :
    boundReader (grammar vars level) '>' (boundTokens .ge bound ++ rest) = some (bound, rest) := by
  cases bound with
  | none =>
    rw [boundTokens, List.nil_append]
    unfold boundReader
    split
    · rw [if_neg]
      rintro rfl
      exact hsign rfl
    · rfl
  | some bound =>
    have hlength : bound.tokens.length < level := by
      simp only [boundTokens, Relation.tokens, List.length_append, List.length_cons] at hlength
      omega
    exact mapped_eq (arith_exact h hlength hrest)

theorem boundReader_le {bound : Option Arith} (h : bound.all (·.exact vars) = true)
    (hlength : (boundTokens .le bound).length ≤ level) :
    boundReader (grammar vars level) '<' (boundTokens .le bound) = some (bound, []) := by
  cases bound with
  | none => rfl
  | some bound =>
    have hlength : bound.tokens.length < level := by
      simp only [boundTokens, Relation.tokens, List.length_append, List.length_cons] at hlength
      omega
    have harith := arith_exact h hlength (avoids_nil _)
    rw [List.append_nil] at harith
    exact mapped_eq harith

theorem varReader_eq (level : Nat) {decl : VarDecl} (h : decl.legible vars = true)
    (hlength : decl.tokens.length ≤ level) : varReader (grammar vars level) (.word decl.name ::
      (decl.index.tokens ++ (decl.domain.tokens
        ++ (boundTokens .ge decl.lower ++ boundTokens .le decl.upper)))) = some (decl, []) := by
  simp only [VarDecl.legible, Bool.and_eq_true] at h
  obtain ⟨⟨⟨hname, hindex⟩, hlower⟩, hupper⟩ := h
  have hlengths : decl.index.tokens.length ≤ level ∧ (boundTokens .ge decl.lower).length ≤ level ∧
      (boundTokens .le decl.upper).length ≤ level := by
    simp only [VarDecl.tokens, List.length_append] at hlength
    omega
  have hbelow : AvoidsOperators (boundTokens .le decl.upper) ∧
      (boundTokens .le decl.upper).head? ≠ some (.symbol '>') := by
    cases decl.upper with
    | none => exact ⟨avoids_nil _, by simp [boundTokens]⟩
    | some bound => exact ⟨avoids_symbol (by decide) _, by simp [boundTokens, Relation.tokens]⟩
  have hbounds : (∀ name, (boundTokens .ge decl.lower ++ boundTokens .le decl.upper).head? ≠
      some (.word name)) ∧
        Avoids ['['] (boundTokens .ge decl.lower ++ boundTokens .le decl.upper) := by
    cases decl.lower with
    | none =>
      refine ⟨fun name => ?_, hbelow.1.mono (by decide)⟩
      cases decl.upper <;> simp [boundTokens, Relation.tokens]
    | some bound =>
      exact ⟨by simp [boundTokens, Relation.tokens], avoids_symbol (by decide) _⟩
  have hdomain : Avoids ['['] (decl.domain.tokens
      ++ (boundTokens .ge decl.lower ++ boundTokens .le decl.upper)) := by
    cases decl.domain with
    | binary | integer => exact avoids_word _ _ _
    | real => exact hbounds.2
  simp [varReader, nameReader_word hname, varIndexReader_eq hindex hlengths.1 hdomain,
    varDomainReader_eq decl.domain hbounds.1, boundReader_ge hlower hlengths.2.1 hbelow.1 hbelow.2,
    mapped, boundReader_le hupper hlengths.2.2]

end Declarations

section Rows

/-- No term goes on into what stands behind a row: a conjunction or nothing. -/
theorem relationReader_eq (relation : Relation) (rest : List Token) :
    relationReader (relation.tokens ++ rest) = some (relation, rest) := by
  cases relation <;> rfl

theorem exists_rowReader {row : Row} (h : row.legible vars = true)
    (hlength : row.tokens.length < level) (hrest : AvoidsOperators rest) : ∃ read, row.Alike read ∧
      rowReader (grammar vars level) (row.tokens ++ rest) = some (read, rest) := by
  rw [Row.legible, Bool.and_eq_true] at h
  have hlengths : row.lhs.tokens.length < level ∧ row.rhs.tokens.length < level := by
    simp only [Row.tokens, List.length_append] at hlength
    omega
  have hrelation : AvoidsOperators (row.relation.tokens ++ (row.rhs.tokens ++ rest)) := by
    cases row.relation <;> exact avoids_symbol (by decide) _
  obtain ⟨lhs, hlhs, hleft⟩ := (row.lhs.reads h.1).expr.whole hlengths.1 hrelation
  obtain ⟨rhs, hrhs, hright⟩ := (row.rhs.reads h.2).expr.whole hlengths.2 hrest
  refine ⟨⟨lhs, row.relation, rhs⟩, ⟨hlhs.symm, rfl, hrhs.symm⟩, ?_⟩
  rw [Row.tokens, List.append_assoc, List.append_assoc, rowReader, hleft]
  simp [relationReader_eq, mapped, hright]

/-- No row starts with `forall`. -/
theorem head?_ne_forall {tokens : List Token} {read : Row × List Token}
    (h : rowReader (grammar vars level) tokens = some read) :
    tokens.head? ≠ some (.word "forall") := by
  have hnone : ∀ tokens, (grammar vars level).expr (.word "forall" :: tokens) = none := by
    intro tokens
    cases level <;> rfl
  cases tokens with
  | nil => exact nofun
  | cons token tokens =>
    rintro ⟨⟩
    rw [rowReader, hnone] at h
    nomatch h

theorem forallsReader_eq {foralls : List Index} (h : ∀ index ∈ foralls, index.exact vars = true)
    (hlength : (foralls.flatMap forallTokens).length ≤ level)
    (hrest : rest.head? ≠ some (.word "forall")) :
    forallsReader (grammar vars level) (foralls.flatMap forallTokens ++ rest) =
      some (foralls, rest) := by
  have hitems : ∀ index ∈ foralls, ∀ rest, True → ∃ read, read = id index ∧
      closing ':' (grammar vars level).index ((index.tokens ++ [.symbol ':']) ++ rest) =
        some (read, rest) := by
    intro index hindex rest _
    have hle :=
      (List.sublist_flatten_of_mem (List.mem_map_of_mem (f := forallTokens) hindex)).length_le
    rw [← List.flatMap_def] at hle
    have hlength : index.tokens.length < level := by
      simp only [forallTokens, List.length_cons, List.length_append] at hle
      omega
    have hread := closing_eq (index_exact (h index hindex) hlength (c := ':') (by decide) rest)
    exact ⟨index, rfl, by simpa using hread⟩
  obtain ⟨read, hread, hchain⟩ :=
    exists_chain_listing (fun _ => True) (fun _ => trivial) trivial hrest hitems []
  rw [eq_map_of_forall₂ hread, List.map_id, List.nil_append, List.flatMap_map] at hchain
  exact hchain

theorem exists_subtoReader (level : Nat) {block : Subto} (h : block.legible vars = true)
    (hlength : block.tokens.length ≤ level) : ∃ read, block.Alike read ∧
      subtoReader (grammar vars level) (.word block.name :: .symbol ':' ::
        (block.foralls.flatMap forallTokens ++ joinTokens (.word "and")
          (block.rows.map Row.tokens))) = some (read, []) := by
  simp only [Subto.legible, Bool.and_eq_true, List.all_eq_true] at h
  obtain ⟨⟨⟨hname, hforalls⟩, hne⟩, hrows⟩ := h
  have hne : block.rows ≠ [] := by simpa using hne
  have hlengths : (block.foralls.flatMap forallTokens).length ≤ level ∧
      (joinTokens (.word "and") (block.rows.map Row.tokens)).length < level := by
    simp only [Subto.tokens, List.length_append, List.length_cons] at hlength
    omega
  have hrow : ∀ row ∈ block.rows, ∀ rest, AvoidsOperators rest → ∃ read, row.Alike read ∧
      rowReader (grammar vars level) (row.tokens ++ rest) = some (read, rest) := by
    intro row hrow rest hrest
    have hle := length_le_joinTokens (List.mem_map_of_mem (f := Row.tokens) hrow) (.word "and")
    exact exists_rowReader (hrows row hrow) (by omega) hrest
  obtain ⟨rows, halike, hread⟩ := exists_separated AvoidsOperators
    (fun _ => avoids_word _ "and" _) (avoids_nil _) (by simp) hne hrow
  rw [List.append_nil] at hread
  have hhead :
      (joinTokens (.word "and") (block.rows.map Row.tokens)).head? ≠ some (.word "forall") := by
    obtain ⟨first, others, hblock⟩ := List.exists_cons_of_ne_nil hne
    rw [hblock, List.map_cons, joinTokens_cons]
    have hfollows : AvoidsOperators ((others.map Row.tokens).flatMap (.word "and" :: ·)) := by
      cases others with
      | nil => exact avoids_nil _
      | cons second others => exact avoids_word _ _ _
    obtain ⟨_, -, hfirst⟩ := hrow first (by simp [hblock]) _ hfollows
    exact head?_ne_forall hfirst
  refine ⟨⟨block.name, block.foralls, rows⟩, ⟨rfl, rfl, halike⟩, ?_⟩
  have hcolon : ∀ tokens, closing ':' nameReader (.word block.name :: .symbol ':' :: tokens) =
      some (block.name, tokens) := fun tokens => closing_eq (nameReader_word hname _)
  simp [subtoReader, hcolon, forallsReader_eq hforalls hlengths.1 hhead, mapped, hread]

end Rows

section Objectives

/-- A summand of its own is put at the end of a sum. -/
theorem sumOf_of_isTerm {right : Linear} (h : right.isTerm = true) (left : Linear) :
    sumOf left right = .sum (left.summands ++ [right]) := by
  cases right with
  | const _ => nomatch h
  | _ => cases left <;> rfl

theorem isTight_of_isTerm {term : Linear} (h : term.isTerm = true) : term.isTight = true := by
  cases term with
  | const _ => nomatch h
  | _ => rfl

theorem operandTokens_of_isTerm {term : Linear} (h : term.isTerm = true) :
    term.operandTokens = term.tokens := by
  cases term with
  | sum _ | diff _ _ => nomatch h
  | _ => rfl

/-- A summand of its own reads as one. -/
theorem exists_product {term : Linear} (h : Linear.Reads vars term) (hterm : term.isTerm = true)
    (hlength : term.tokens.length ≤ level) (hrest : Avoids ['[', '*', '/'] rest) :
    ∃ read, read.Alike term ∧ read.isTerm = true ∧
      (grammar vars (level + 1)).product (term.tokens ++ rest) = some (read, rest) := by
  have hproduct := h.product (isTight_of_isTerm hterm)
  rw [operandTokens_of_isTerm hterm] at hproduct
  obtain ⟨read, hread, htokens⟩ := hproduct.whole hlength hrest
  exact ⟨read, hread.alike, hread.isTerm hterm, htokens⟩

/-- A sum of summands of their own goes on with each of them. -/
theorem exists_sums {terms : List Linear} (h : ∀ term ∈ terms, Linear.Reads vars term)
    (hterms : ∀ term ∈ terms, term.isTerm = true)
    (hlength : ∀ term ∈ terms, term.tokens.length ≤ level) (left : Linear) :
    ∃ reads read, List.Forall₂ Linear.Alike terms reads ∧ read.summands = left.summands ++ reads ∧
      sums vars level left ((terms.map Linear.tokens).flatMap (.symbol '+' :: ·)) =
        some (read, []) := by
  induction terms generalizing left with
  | nil => exact ⟨[], left, .nil, (List.append_nil _).symm, sums_stop (avoids_nil _) left⟩
  | cons first terms ih =>
    obtain ⟨hfirst, hothers⟩ := List.forall_mem_cons.mp h
    obtain ⟨hterm, hterms⟩ := List.forall_mem_cons.mp hterms
    obtain ⟨hle, hles⟩ := List.forall_mem_cons.mp hlength
    have hbehind :
        Avoids ['[', '*', '/'] ((terms.map Linear.tokens).flatMap (.symbol '+' :: ·)) := by
      cases terms with
      | nil => exact avoids_nil _
      | cons second terms => exact avoids_symbol (by decide) _
    obtain ⟨right, halike, hright, hproduct⟩ := exists_product hfirst hterm hle hbehind
    obtain ⟨reads, read, hreads, hsummands, hsums⟩ :=
      ih hothers hterms hles (.sum (left.summands ++ [right]))
    refine ⟨right :: reads, read, .cons halike.symm hreads, ?_, ?_⟩
    · rw [hsummands, Linear.summands, List.append_assoc, List.singleton_append]
    · rw [List.map_cons, List.flatMap_cons, List.cons_append, ← hsums, ← sumOf_of_isTerm hright]
      exact chain_step rfl hproduct (by simp) rfl

theorem exists_objectiveReader (level : Nat) {goal : Objective} (h : goal.legible vars = true)
    (hlength : goal.tokens.length ≤ level) : ∃ read, goal.Alike read ∧
      objectiveReader (grammar vars (level + 1)) goal.direction (.word goal.name :: .symbol ':' ::
        joinTokens (.symbol '+') (goal.terms.map Linear.tokens)) = some (read, []) := by
  simp only [Objective.legible, Bool.and_eq_true, List.all_eq_true] at h
  obtain ⟨⟨hname, hne⟩, hlegible⟩ := h
  have hne : goal.terms ≠ [] := by simpa using hne
  have hreads : ∀ term ∈ goal.terms, Linear.Reads vars term := fun term hterm =>
    term.reads (hlegible term hterm).1
  have hterms : ∀ term ∈ goal.terms, term.isTerm = true := fun term hterm => (hlegible term hterm).2
  have hlengths : ∀ term ∈ goal.terms, term.tokens.length ≤ level := by
    intro term hterm
    have hle := length_le_joinTokens (List.mem_map_of_mem (f := Linear.tokens) hterm) (.symbol '+')
    simp only [Objective.tokens, List.length_append] at hlength
    omega
  obtain ⟨first, others, hgoal⟩ := List.exists_cons_of_ne_nil hne
  rw [hgoal] at hreads hterms hlengths
  have hbehind :
      Avoids ['[', '*', '/'] ((others.map Linear.tokens).flatMap (.symbol '+' :: ·)) := by
    cases others with
    | nil => exact avoids_nil _
    | cons second others => exact avoids_symbol (by decide) _
  obtain ⟨left, halike, hleft, hproduct⟩ := exists_product (hreads first (.head _))
    (hterms first (.head _)) (hlengths first (.head _)) hbehind
  obtain ⟨reads, read, hothers, hsummands, hsums⟩ := exists_sums (fun t ht => hreads t (.tail _ ht))
    (fun t ht => hterms t (.tail _ ht)) (fun t ht => hlengths t (.tail _ ht)) left
  have hsingle : left.summands = [left] := by
    cases left with
    | sum _ => cases hleft
    | _ => rfl
  have hexpr : (grammar vars (level + 1)).expr
      (joinTokens (.symbol '+') (goal.terms.map Linear.tokens)) = some (read, []) := by
    rw [hgoal, List.map_cons, joinTokens_cons, expr_eq hproduct, hsums]
  have hcolon : ∀ tokens, closing ':' nameReader (.word goal.name :: .symbol ':' :: tokens) =
      some (goal.name, tokens) := fun tokens => closing_eq (nameReader_word hname _)
  refine ⟨⟨goal.direction, goal.name, read.summands⟩, ⟨rfl, rfl, ?_⟩, ?_⟩
  · rw [hgoal, hsummands, hsingle]
    exact .cons halike.symm hothers
  · simp [objectiveReader, hcolon, mapped, hexpr]

end Objectives

/-- A legible statement reads back as one that says the same. -/
theorem Statement.exists_readStatement? {statement : Statement} (h : statement.legible vars = true)
    (hspoken : statement.isSpoken = true) :
    ∃ read, readStatement? vars statement.tokens = some read ∧ statement.Alike read := by
  have hread : ∀ {read : Statement}, statementReader (grammar vars (statement.tokens.length + 1))
      statement.tokens = some (read, []) → readStatement? vars statement.tokens = some read := by
    intro read hread
    rw [readStatement?, hread]
  cases statement with
  | comment _ | blank => nomatch hspoken
  | param name value =>
    obtain ⟨hname, hvalue⟩ := Bool.and_eq_true_iff.mp h
    have hparam := paramReader_eq ((Statement.param name value).tokens.length + 1) hname hvalue
      (by simp [Statement.tokens]; omega)
    exact ⟨_, hread hparam, rfl⟩
  | set name value =>
    obtain ⟨hname, hvalue⟩ := Bool.and_eq_true_iff.mp h
    have hset := setReader_set ((Statement.set name value).tokens.length + 1) hname hvalue
      (by simp [Statement.tokens]; omega)
    exact ⟨_, hread hset, rfl⟩
  | setFamily name value =>
    obtain ⟨hname, hvalue⟩ := Bool.and_eq_true_iff.mp h
    have hset := setReader_family ((Statement.setFamily name value).tokens.length + 1) hname
      hvalue (by simp [Statement.tokens]; omega)
    exact ⟨_, hread hset, rfl⟩
  | var decl =>
    have hvar := varReader_eq (decl.tokens.length + 1) h (by omega)
    have htokens : decl.tokens = .word "var" :: .word decl.name ::
        (decl.index.tokens ++ (decl.domain.tokens
          ++ (boundTokens .ge decl.lower ++ boundTokens .le decl.upper))) := by
      simp [VarDecl.tokens]
    refine ⟨.var decl, hread ?_, rfl⟩
    rw [Statement.tokens]
    nth_rewrite 2 [htokens]
    exact mapped_eq hvar
  | subto block =>
    obtain ⟨read, halike, hsubto⟩ := exists_subtoReader (block.tokens.length + 1) h (by omega)
    exact ⟨.subto read, hread (mapped_eq hsubto), halike⟩
  | objective goal =>
    obtain ⟨read, halike, hgoal⟩ := exists_objectiveReader goal.tokens.length h le_rfl
    refine ⟨.objective read, hread ?_, halike⟩
    obtain ⟨direction, name, terms⟩ := goal
    cases direction <;> exact mapped_eq hgoal

end RoundRobin.Zimpl
