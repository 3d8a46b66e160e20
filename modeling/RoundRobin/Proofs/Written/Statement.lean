import Mathlib
import RoundRobin.Proofs.Written.Linear
import RoundRobin.Proofs.Written.Lines

/-! Statements read back. What a legible statement declares is read as it stands; the sides of its
rows and the terms of its objective are read as terms of the same value. -/

namespace RoundRobin.Zimpl

open Written

def Relation.tokens : Relation → List Token
  | .le => [.symbol '<', .symbol '=']
  | .ge => [.symbol '>', .symbol '=']
  | .eq => [.symbol '=', .symbol '=']

def Row.tokens (row : Row) : List Token := row.lhs.tokens ++ row.relation.tokens ++ row.rhs.tokens

def forallTokens (index : Index) : List Token := .word "forall" :: (index.tokens ++ [.symbol ':'])

def Subto.tokens (block : Subto) : List Token :=
  [.word "subto", .word block.name, .symbol ':'] ++ (block.foralls.flatMap forallTokens
    ++ joinTokens (.word "and") (block.rows.map Row.tokens))

def VarIndex.tokens : VarIndex → List Token
  | .scalar => []
  | .over set => [.symbol '['] ++ set.tokens ++ [.symbol ']']
  | .bound index => [.symbol '['] ++ index.tokens ++ [.symbol ']']

def VarDomain.tokens : VarDomain → List Token
  | .binary => [.word "binary"]
  | .integer => [.word "integer"]
  | .real => []

def boundTokens (relation : Relation) : Option Arith → List Token
  | none => []
  | some bound => relation.tokens ++ bound.tokens

def VarDecl.tokens (decl : VarDecl) : List Token :=
  [.word "var", .word decl.name] ++ decl.index.tokens ++ decl.domain.tokens
    ++ boundTokens .ge decl.lower ++ boundTokens .le decl.upper

def Direction.tokens : Direction → List Token
  | .minimize => [.word "minimize"]
  | .maximize => [.word "maximize"]

def Objective.tokens (goal : Objective) : List Token :=
  goal.direction.tokens ++ [.word goal.name, .symbol ':']
    ++ joinTokens (.symbol '+') (goal.terms.map Linear.tokens)

/-- The tokens of a statement before its semicolon. -/
def Statement.tokens : Statement → List Token
  | .comment _ | .blank => []
  | .param name value => [.word "param", .word name, .symbol ':', .symbol '='] ++ value.tokens
  | .set name value => [.word "set", .word name, .symbol ':', .symbol '='] ++ value.tokens
  | .setFamily name value =>
    [.word "set", .word name, .symbol '[', .symbol ']', .symbol ':', .symbol '='] ++ value.tokens
  | .var decl => decl.tokens
  | .subto block => block.tokens
  | .objective goal => goal.tokens

/-- Comments and blank lines are no part of what a program says. -/
def Statement.isSpoken : Statement → Bool
  | .comment _ | .blank => false
  | _ => true

section Legible

variable (vars : List String)

/-- Whether a term reads back as it stands. -/
def Arith.exact (value : Arith) : Bool := value.legible vars && value.asRead = value

def SetTerm.exact (value : SetTerm) : Bool := value.legible vars && value.asRead = value

def Index.exact (index : Index) : Bool := index.legible vars && index.asRead = index

def Row.legible (row : Row) : Bool := row.lhs.legible vars && row.rhs.legible vars

def Subto.legible (block : Subto) : Bool :=
  isName block.name && block.foralls.all (·.exact vars) && !block.rows.isEmpty
    && block.rows.all (·.legible vars)

def VarIndex.exact : VarIndex → Bool
  | .scalar => true
  | .over set => set.exact vars
  | .bound index => index.exact vars

def VarDecl.legible (decl : VarDecl) : Bool :=
  isName decl.name && decl.index.exact vars && decl.lower.all (·.exact vars)
    && decl.upper.all (·.exact vars)

/-- Each term of an objective has to be a summand of its own. -/
def Objective.legible (goal : Objective) : Bool :=
  isName goal.name && !goal.terms.isEmpty && goal.terms.all fun term =>
    term.legible vars && term.isTerm

/-- Whether a statement reads back: what it declares as it stands, and its terms by their values. -/
def Statement.legible : Statement → Bool
  | .comment _ | .blank => true
  | .param name value => isName name && value.exact vars
  | .set name value | .setFamily name value => isName name && value.exact vars
  | .var decl => decl.legible vars
  | .subto block => block.legible vars
  | .objective goal => goal.legible vars

end Legible

/-- The same relation between sides of the same values. -/
structure Row.Alike (a b : Row) : Prop where
  lhs : a.lhs.Alike b.lhs
  relation : a.relation = b.relation
  rhs : a.rhs.Alike b.rhs

/-- The same name and the same indices, around rows that are alike one by one. -/
structure Subto.Alike (a b : Subto) : Prop where
  name : a.name = b.name
  foralls : a.foralls = b.foralls
  rows : List.Forall₂ Row.Alike a.rows b.rows

structure Objective.Alike (a b : Objective) : Prop where
  direction : a.direction = b.direction
  name : a.name = b.name
  terms : List.Forall₂ Linear.Alike a.terms b.terms

/-- Two statements say the same: declarations are equal, and constraints and objectives differ at
most in how they write terms of the same value. -/
def Statement.Alike : Statement → Statement → Prop
  | .subto a, .subto b => a.Alike b
  | .objective a, .objective b => a.Alike b
  | a, b => a = b

section Spells

variable {vars : List String}

theorem Relation.separates (relation : Relation) :
    Separates (" " ++ relation.text ++ " ") relation.tokens := by
  cases relation <;> exact ⟨⟨rfl, fun _ => rfl⟩, _, _, rfl, rfl⟩

theorem Row.spells {row : Row} (h : row.legible vars = true) : Spells row.text row.tokens := by
  rw [Row.legible, Bool.and_eq_true] at h
  have hspells := (row.lhs.spells h.1).between row.relation.separates (row.rhs.spells h.2)
  simpa only [Row.text, Row.tokens, String.append_assoc] using hspells

theorem Row.tokens_ne_nil (row : Row) : row.tokens ≠ [] := by
  cases hrelation : row.relation <;> simp [Row.tokens, hrelation, Relation.tokens]

theorem closed_indent (depth : Nat) : Closed (indent depth) [] := by
  have hinner : Closed "   " [] := ⟨rfl, fun _ => rfl⟩
  induction depth with
  | zero => exact closed_empty
  | succ depth ih =>
    have hindent : indent (depth + 1) = "   " ++ indent depth := by
      apply String.toList_inj.mp
      simp [indent, List.replicate_succ]
    rw [hindent]
    exact hinner.append ih

/-- A line that others are indented under ends with a colon. -/
theorem separates_heading : Separates ":" [.symbol ':'] := ⟨⟨rfl, fun _ => rfl⟩, _, _, rfl, rfl⟩

theorem lines_foralls {text : String} {tokens : List Token} (h : Lines text tokens) :
    (foralls : List Index) → (∀ index ∈ foralls, index.legible vars = true) → (depth : Nat) →
      Lines (forallLines depth foralls ++ text) (foralls.flatMap forallTokens ++ tokens)
  | [], _, _ => by simpa [forallLines] using h
  | index :: foralls, hlegible, depth => by
    obtain ⟨hindex, hforalls⟩ := List.forall_mem_cons.mp hlegible
    have hforall : Closed "forall " [.word "forall"] := ⟨rfl, fun _ => rfl⟩
    have hline :=
      ((closed_indent depth).append hforall).around (index.spells hindex) separates_heading
    have hlines := Lines.cons hline.spells (by simp) (lines_foralls h foralls hforalls (depth + 1))
    have htext :
        forallLines depth (index :: foralls) ++ text = indent depth ++ "forall " ++ index.text
        ++ ":" ++ "\n" ++ (forallLines (depth + 1) foralls ++ text) := by
      have hend : ":\n" = ":" ++ "\n" := rfl
      rw [forallLines, hend]
      simp only [String.append_assoc]
    rw [htext]
    simpa [forallTokens] using hlines

theorem Subto.lines {block : Subto} (h : block.legible vars = true) :
    ∃ body, block.text = body ++ ";" ∧ Lines body block.tokens := by
  simp only [Subto.legible, Bool.and_eq_true, List.all_eq_true, Index.exact] at h
  obtain ⟨⟨⟨hname, hforalls⟩, hne⟩, hrows⟩ := h
  have hne : block.rows ≠ [] := by simpa using hne
  have hempty : block.rows.isEmpty = false := by simpa using hne
  have hand : Closed "and " [.word "and"] := ⟨rfl, fun _ => rfl⟩
  have hrowLines :=
    Lines.intercalate ((closed_indent (block.foralls.length + 1)).append hand) block.rows
    (fun row hrow => Row.spells (hrows row hrow)) (closed_indent (block.foralls.length + 1)) hne
    fun row _ => row.tokens_ne_nil
  have hbehind :=
    lines_foralls hrowLines block.foralls (fun index hindex => (hforalls index hindex).1) 1
  have hsubto : Closed "subto " [.word "subto"] := ⟨rfl, fun _ => rfl⟩
  have hlines :=
    Lines.cons (hsubto.around (spells_name hname) separates_heading).spells (by simp) hbehind
  refine ⟨_, ?_, hlines⟩
  have hend : ":\n" = ":" ++ "\n" := rfl
  rw [Subto.text, hempty, hend]
  simp only [String.append_assoc, Bool.false_eq_true, if_false]

theorem Objective.lines {goal : Objective} (h : goal.legible vars = true) :
    ∃ body, goal.text = body ++ ";" ∧ Lines body goal.tokens := by
  simp only [Objective.legible, Bool.and_eq_true, List.all_eq_true] at h
  obtain ⟨⟨hname, hne⟩, hterms⟩ := h
  have hne : goal.terms ≠ [] := by simpa using hne
  have hdirection : ∃ text, goal.direction.text ++ " " = text ∧
      Closed text goal.direction.tokens := by
    cases goal.direction <;> exact ⟨_, rfl, rfl, fun _ => rfl⟩
  obtain ⟨text, htext, hclosed⟩ := hdirection
  have hplus : Closed "+ " [.symbol '+'] := ⟨rfl, fun _ => rfl⟩
  have hlines := Lines.intercalate ((closed_indent 1).append hplus) goal.terms
    (fun term hterm => term.spells (hterms term hterm).1) (hclosed.around (spells_name hname)
      separates_colon) hne (by simp)
  rw [← htext] at hlines
  refine ⟨_, ?_, by simpa [Objective.tokens] using hlines⟩
  simp only [Objective.text, String.append_assoc]

theorem VarIndex.spellsBehind {index : VarIndex} {text : String} {tokens : List Token}
    (h : index.exact vars = true) (hhead : Spells text tokens) :
    Spells (text ++ index.text) (tokens ++ index.tokens) := by
  match index, h with
  | .scalar, _ => simpa [VarIndex.text, VarIndex.tokens] using hhead
  | .over set, h =>
    have hset := set.spells (Bool.and_eq_true_iff.mp h).1
    have hspells := spells_member hhead hset
    simpa only [VarIndex.text, VarIndex.tokens, String.append_assoc, List.append_assoc]
      using hspells
  | .bound index, h =>
    have hindex := index.spells (Bool.and_eq_true_iff.mp h).1
    have hspells := spells_member hhead hindex
    simpa only [VarIndex.text, VarIndex.tokens, String.append_assoc, List.append_assoc]
      using hspells

theorem VarDomain.spellsBehind (domain : VarDomain) {text : String} {tokens : List Token}
    (hhead : Spells text tokens) : Spells (text ++ domain.text) (tokens ++ domain.tokens) := by
  have hblank : Separates " " [] := ⟨⟨rfl, fun _ => rfl⟩, _, _, rfl, rfl⟩
  cases domain with
  | binary =>
    have hbinary : Spells "binary" [.word "binary"] := spells_word rfl (by decide) (by decide)
    have hspells := hhead.between hblank hbinary
    rwa [List.append_nil, String.append_assoc] at hspells
  | integer =>
    have hinteger : Spells "integer" [.word "integer"] := spells_word rfl (by decide) (by decide)
    have hspells := hhead.between hblank hinteger
    rwa [List.append_nil, String.append_assoc] at hspells
  | real => simpa [VarDomain.text, VarDomain.tokens] using hhead

theorem spellsBehind_bound {bound : Option Arith} (h : bound.all (·.exact vars) = true)
    (relation : Relation) {text : String} {tokens : List Token} (hhead : Spells text tokens) :
    Spells (text ++ boundText relation bound) (tokens ++ boundTokens relation bound) := by
  cases bound with
  | none => simpa [boundText, boundTokens] using hhead
  | some bound =>
    have hbound := bound.spells (Bool.and_eq_true_iff.mp h).1
    have hspells := hhead.between relation.separates hbound
    simpa only [boundText, boundTokens, String.append_assoc, List.append_assoc] using hspells

theorem VarDecl.lines {decl : VarDecl} (h : decl.legible vars = true) :
    ∃ body, decl.text = body ++ ";" ∧ Lines body decl.tokens := by
  simp only [VarDecl.legible, Bool.and_eq_true] at h
  obtain ⟨⟨⟨hname, hindex⟩, hlower⟩, hupper⟩ := h
  have hvar : Closed "var " [.word "var"] := ⟨rfl, fun _ => rfl⟩
  have hhead := VarIndex.spellsBehind hindex (hvar.before (spells_name hname))
  have hspells := spellsBehind_bound hupper .le
    (spellsBehind_bound hlower .ge (decl.domain.spellsBehind hhead))
  exact ⟨_, rfl, .last hspells (List.cons_ne_nil _ _)⟩

/-- The text of a legible statement is lines of its tokens, with a semicolon at the end. -/
theorem Statement.lines {statement : Statement} (h : statement.legible vars = true)
    (hspoken : statement.isSpoken = true) :
    ∃ body, statement.text = body ++ ";" ∧ Lines body statement.tokens := by
  have hdefined : Separates " := " [.symbol ':', .symbol '='] :=
    ⟨⟨rfl, fun _ => rfl⟩, _, _, rfl, rfl⟩
  have hset : Closed "set " [.word "set"] := ⟨rfl, fun _ => rfl⟩
  cases statement with
  | comment _ | blank => nomatch hspoken
  | param name value =>
    simp only [Statement.legible, Arith.exact, Bool.and_eq_true] at h
    have hparam : Closed "param " [.word "param"] := ⟨rfl, fun _ => rfl⟩
    have hspells := (hparam.around (spells_name h.1) hdefined).before (value.spells h.2.1)
    exact ⟨_, rfl, .last hspells (List.cons_ne_nil _ _)⟩
  | set name value =>
    simp only [Statement.legible, SetTerm.exact, Bool.and_eq_true] at h
    have hspells := (hset.around (spells_name h.1) hdefined).before (value.spells h.2.1)
    exact ⟨_, rfl, .last hspells (List.cons_ne_nil _ _)⟩
  | setFamily name value =>
    simp only [Statement.legible, SetTerm.exact, Bool.and_eq_true] at h
    have hfamily : Separates "[] := " [.symbol '[', .symbol ']', .symbol ':', .symbol '='] :=
      ⟨⟨rfl, fun _ => rfl⟩, _, _, rfl, rfl⟩
    have hspells := (hset.around (spells_name h.1) hfamily).before (value.spells h.2.1)
    exact ⟨_, rfl, .last hspells (List.cons_ne_nil _ _)⟩
  | var decl => exact VarDecl.lines h
  | subto block => exact Subto.lines h
  | objective goal => exact Objective.lines h

end Spells

end RoundRobin.Zimpl
