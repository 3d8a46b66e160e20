import Mathlib
import RoundRobin.Proofs.Written.Token
import RoundRobin.Text.Split
import RoundRobin.Zimpl.Program

/-! A reader of written Zimpl programs. Products and quotients bind more strongly than sums and
differences, and a product of sets more strongly than a difference; all of them associate to the
left. The body of a sum over an index is one product. A grammar reads nested terms by the grammar of
the level below, so each level reads terms that are nested one deeper. -/

namespace RoundRobin.Written

open Zimpl

/-- Reads something off the front of some tokens; what is behind it is left. -/
abbrev Reader (α : Type) := List Token → Option (α × List Token)

section Readers

variable {α β : Type}

/-- The tokens behind a token that has to be the first. -/
def expect (token : Token) : List Token → Option (List Token)
  | [] => none
  | first :: tokens => if first = token then some tokens else none

def mapped (f : α → β) (item : Reader α) : Reader β := fun tokens => do
  let (value, tokens) ← item tokens
  return (f value, tokens)

/-- An item with a token behind it. -/
def closing (last : Char) (item : Reader α) : Reader α := fun tokens => do
  let (value, tokens) ← item tokens
  let tokens ← expect (.symbol last) tokens
  return (value, tokens)

def enclosed (item : Reader α) : Reader α := fun tokens => do
  let tokens ← expect (.symbol '(') tokens
  closing ')' item tokens

/-- Reads operands for as long as operators stand before them, and joins each to what stands to the
left of it. -/
def chain (operand : Reader β) (operator? : Token → Option (α → β → Option α)) (left : α) :
    Reader α
  | [] => some (left, [])
  | token :: tokens =>
    match operator? token with
    | none => some (left, token :: tokens)
    | some join =>
      match operand tokens with
      | none => none
      | some (right, rest) =>
        if rest.length ≤ tokens.length then
          (join left right).bind fun joined => chain operand operator? joined rest
        else none
termination_by tokens => tokens.length

/-- Operands joined from the left by the operators between them. -/
def chained (operand : Reader α) (operator? : Token → Option (α → α → Option α)) : Reader α :=
  fun tokens => do
    let (first, tokens) ← operand tokens
    chain operand operator? first tokens

/-- Puts the item behind a mark at the end of a list. -/
def listing (mark token : Token) : Option (List α → α → Option (List α)) :=
  if token = mark then some fun items item => some (items ++ [item]) else none

/-- One or more items with a mark between them. -/
def separated (mark : Token) (item : Reader α) : Reader (List α) := fun tokens => do
  let (first, tokens) ← item tokens
  chain item (listing mark) [first] tokens

end Readers

/-- The sum of two terms. A term without variables stays arithmetic. -/
def sumOf : Linear → Linear → Linear
  | .const a, .const b => .const (a + b)
  | .sum terms, b => .sum (terms ++ [b])
  | a, b => .sum [a, b]

def differenceOf : Linear → Linear → Linear
  | .const a, .const b => .const (a - b)
  | a, b => .diff a b

/-- The product of two terms, of which one has no variables. -/
def productOf? : Linear → Linear → Option Linear
  | .const a, .const b => some (.const (a * b))
  | .const a, b => some (.scaled a b)
  | a, .const b => some (.scaled b a)
  | _, _ => none

def quotientOf? : Linear → Linear → Option Linear
  | .const a, .const b => some (.const (a / b))
  | a, .const b => some (.scaled (1 / b) a)
  | _, _ => none

def sumOperator? : Token → Option (Linear → Linear → Option Linear)
  | .symbol '+' => some fun a b => some (sumOf a b)
  | .symbol '-' => some fun a b => some (differenceOf a b)
  | _ => none

def productOperator? : Token → Option (Linear → Linear → Option Linear)
  | .symbol '*' => some productOf?
  | .symbol '/' => some quotientOf?
  | _ => none

def setOperator? : Token → Option (SetTerm → SetTerm → Option SetTerm)
  | .symbol '\\' => some fun a b => some (.minus a b)
  | _ => none

/-- The product of some sets; one set stands for itself. -/
def setProduct : List SetTerm → SetTerm
  | [factor] => factor
  | factors => .product factors

def nameReader : Reader String
  | .word name :: tokens => if isName name then some (name, tokens) else none
  | _ => none

def numberReader : Reader Nat
  | .number value :: tokens => some (value, tokens)
  | _ => none

/-- Readers of terms and sets, from the strongest binding to the weakest. -/
structure Grammar where
  operand : Reader Linear
  product : Reader Linear
  expr : Reader Linear
  atom : Reader SetTerm
  factors : Reader SetTerm
  set : Reader SetTerm

namespace Grammar

/-- A term without variables. -/
def arith (grammar : Grammar) : Reader Arith := fun tokens =>
  match grammar.expr tokens with
  | some (.const value, tokens) => some (value, tokens)
  | _ => none

def ariths (grammar : Grammar) : Reader (List Arith) := separated (.symbol ',') grammar.arith

def condition (grammar : Grammar) : Reader Condition
  | .word "with" :: tokens => do
    let (a, tokens) ← grammar.arith tokens
    match tokens with
    | .symbol '!' :: .symbol '=' :: tokens => mapped (.ne a) grammar.arith tokens
    | .symbol '<' :: tokens => mapped (.lt a) grammar.arith tokens
    | _ => none
  | tokens => some (.always, tokens)

def index (grammar : Grammar) : Reader Index := fun tokens => do
  let tokens ← expect (.symbol '<') tokens
  let (symbols, tokens) ← separated (.symbol ',') nameReader tokens
  let tokens ← expect (.symbol '>') tokens
  let tokens ← expect (.word "in") tokens
  let (domain, tokens) ← grammar.set tokens
  let (condition, tokens) ← grammar.condition tokens
  return (.mk symbols domain condition, tokens)

/-- A sum over an index, behind its keyword. Its body is one product. -/
def sumOver (inner : Grammar) : Reader Linear := fun tokens => do
  let (index, tokens) ← inner.index tokens
  let tokens ← expect (.symbol ':') tokens
  mapped (.sumOver index) inner.product tokens

/-- The lesser of two numbers, behind its keyword. -/
def minimum (inner : Grammar) : Reader Linear := fun tokens =>
  match enclosed inner.ariths tokens with
  | some ([a, b], tokens) => some (.const (.min a b), tokens)
  | _ => none

/-- What a name stands for: with subscripts a variable, by itself a variable that is declared, else
a parameter or a bound symbol. -/
def reference (vars : List String) (inner : Grammar) (name : String) : Reader Linear
  | .symbol '[' :: tokens => mapped (.var name) (closing ']' inner.ariths) tokens
  | tokens => some (if name ∈ vars then .var name [] else .const (.name name), tokens)

/-- A minus directly before digits belongs to the number. -/
def readOperand (vars : List String) (inner : Grammar) : Reader Linear
  | .number value :: tokens => some (.const (.int value), tokens)
  | .symbol '-' :: .number value :: tokens => some (.const (.int (-value)), tokens)
  | .symbol '(' :: tokens => closing ')' inner.expr tokens
  | .word "sum" :: tokens => inner.sumOver tokens
  | .word "vabs" :: tokens => mapped .abs (enclosed inner.expr) tokens
  | .word "floor" :: tokens => mapped (.const ∘ .floor) (enclosed inner.arith) tokens
  | .word "min" :: tokens => inner.minimum tokens
  | .word "card" :: tokens => mapped (.const ∘ .card) (enclosed inner.set) tokens
  | .word name :: tokens => if isName name then inner.reference vars name tokens else none
  | _ => none

/-- Some numbers, or the integers between two numbers, with a brace behind them. -/
def numbers (inner : Grammar) : Reader SetTerm := fun tokens => do
  let (elements, tokens) ← inner.ariths tokens
  match tokens, elements with
  | .symbol '\x7d' :: tokens, elements => some (.list elements, tokens)
  | .symbol '.' :: .symbol '.' :: tokens, [first] =>
    mapped (.range first) (closing '\x7d' inner.arith) tokens
  | _, _ => none

/-- A set in braces, behind the first of them: no numbers, the tuples of an index, or numbers. -/
def braces (inner : Grammar) : Reader SetTerm
  | .symbol '\x7d' :: tokens => some (.list [], tokens)
  | .symbol '<' :: tokens => mapped .builder (closing '\x7d' inner.index) (.symbol '<' :: tokens)
  | tokens => inner.numbers tokens

/-- The subsets of a size, behind the keyword. -/
def subsets (inner : Grammar) : Reader SetTerm := enclosed fun tokens => do
  let (set, tokens) ← inner.set tokens
  let tokens ← expect (.symbol ',') tokens
  mapped (.subsets set) numberReader tokens

/-- What a name stands for: with a subscript a member of a family, else a set. -/
def setReference (inner : Grammar) (name : String) : Reader SetTerm
  | .symbol '[' :: tokens => mapped (.member name) (closing ']' inner.arith) tokens
  | tokens => some (.name name, tokens)

def readAtom (inner : Grammar) : Reader SetTerm
  | .symbol '(' :: tokens => closing ')' inner.set tokens
  | .symbol '\x7b' :: tokens => inner.braces tokens
  | .word "subsets" :: tokens => inner.subsets tokens
  | .word "indexset" :: tokens => mapped .indexset (enclosed nameReader) tokens
  | .word name :: tokens => if isName name then inner.setReference name tokens else none
  | _ => none

/-- The grammar one level above another. -/
def next (vars : List String) (inner : Grammar) : Grammar where
  operand := inner.readOperand vars
  product := chained (inner.readOperand vars) productOperator?
  expr := chained (chained (inner.readOperand vars) productOperator?) sumOperator?
  atom := inner.readAtom
  factors := mapped setProduct (separated (.symbol '*') inner.readAtom)
  set := chained (mapped setProduct (separated (.symbol '*') inner.readAtom)) setOperator?

/-- The grammar that reads nothing. -/
def empty : Grammar :=
  ⟨fun _ => none, fun _ => none, fun _ => none, fun _ => none, fun _ => none, fun _ => none⟩

end Grammar

/-- The grammar of some level over some declared variables. -/
def grammar (vars : List String) : Nat → Grammar
  | 0 => .empty
  | level + 1 => (grammar vars level).next vars

section Statements

variable (grammar : Grammar)

def relationReader : Reader Relation
  | .symbol '<' :: .symbol '=' :: tokens => some (.le, tokens)
  | .symbol '>' :: .symbol '=' :: tokens => some (.ge, tokens)
  | .symbol '=' :: .symbol '=' :: tokens => some (.eq, tokens)
  | _ => none

def rowReader : Reader Row := fun tokens => do
  let (lhs, tokens) ← grammar.expr tokens
  let (relation, tokens) ← relationReader tokens
  mapped (.mk lhs relation) grammar.expr tokens

/-- The indices of a block, each behind `forall` and with a colon behind it. -/
def forallsReader : Reader (List Index) :=
  chain (closing ':' grammar.index) (listing (.word "forall")) []

/-- A block of rows, behind its keyword: all the rows stand under all the indices. -/
def subtoReader : Reader Subto := fun tokens => do
  let (name, tokens) ← closing ':' nameReader tokens
  let (foralls, tokens) ← forallsReader grammar tokens
  mapped (.mk name foralls) (separated (.word "and") (rowReader grammar)) tokens

def varIndexReader : Reader VarIndex
  | .symbol '[' :: .symbol '<' :: tokens =>
    mapped .bound (closing ']' grammar.index) (.symbol '<' :: tokens)
  | .symbol '[' :: tokens => mapped .over (closing ']' grammar.set) tokens
  | tokens => some (.scalar, tokens)

def varDomainReader : Reader VarDomain
  | .word "binary" :: tokens => some (.binary, tokens)
  | .word "integer" :: tokens => some (.integer, tokens)
  | tokens => some (.real, tokens)

/-- A bound behind a sign of comparison, if there is one. -/
def boundReader (sign : Char) : Reader (Option Arith)
  | .symbol first :: .symbol '=' :: tokens =>
    if first = sign then mapped some grammar.arith tokens
    else some (none, .symbol first :: .symbol '=' :: tokens)
  | tokens => some (none, tokens)

/-- A declaration of a variable, behind its keyword. -/
def varReader : Reader VarDecl := fun tokens => do
  let (name, tokens) ← nameReader tokens
  let (index, tokens) ← varIndexReader grammar tokens
  let (domain, tokens) ← varDomainReader tokens
  let (lower, tokens) ← boundReader grammar '>' tokens
  mapped (.mk name index domain lower) (boundReader grammar '<') tokens

/-- What stands behind the sign of definition. -/
def definition {α : Type} (item : Reader α) : Reader α := fun tokens => do
  let tokens ← expect (.symbol ':') tokens
  let tokens ← expect (.symbol '=') tokens
  item tokens

def paramReader : Reader Statement := fun tokens => do
  let (name, tokens) ← nameReader tokens
  mapped (.param name) (definition grammar.arith) tokens

/-- A set or, where brackets stand behind the name, a family of sets. -/
def setReader : Reader Statement := fun tokens => do
  let (name, tokens) ← nameReader tokens
  match tokens with
  | .symbol '[' :: .symbol ']' :: tokens => mapped (.setFamily name) (definition grammar.set) tokens
  | _ => mapped (.set name) (definition grammar.set) tokens

/-- An objective, behind its direction; its terms are the summands. -/
def objectiveReader (direction : Direction) : Reader Objective := fun tokens => do
  let (name, tokens) ← closing ':' nameReader tokens
  mapped (fun term => .mk direction name term.summands) grammar.expr tokens

def statementReader : Reader Statement
  | .word "param" :: tokens => paramReader grammar tokens
  | .word "set" :: tokens => setReader grammar tokens
  | .word "var" :: tokens => mapped .var (varReader grammar) tokens
  | .word "subto" :: tokens => mapped .subto (subtoReader grammar) tokens
  | .word "minimize" :: tokens => mapped .objective (objectiveReader grammar .minimize) tokens
  | .word "maximize" :: tokens => mapped .objective (objectiveReader grammar .maximize) tokens
  | _ => none

end Statements

/-- The variable that a statement declares. -/
def declaredVariable? : List Token → Option String
  | .word "var" :: .word name :: _ => some name
  | _ => none

/-- Reads all of the tokens of a statement. -/
def readStatement? (vars : List String) (tokens : List Token) : Option Statement :=
  match statementReader (grammar vars (tokens.length + 1)) tokens with
  | some (statement, []) => some statement
  | _ => none

/-- Whether a line is part of a statement: it is neither blank nor a comment. -/
def isSpoken (line : List Char) : Bool := !line.all Text.isBlank && line.head? ≠ some '#'

/-- The text of the statements, without blank lines and comments. -/
def statementText (text : List Char) : List Char :=
  ((Text.lines text).filter isSpoken).flatMap (· ++ ['\n'])

/-- The texts between the semicolons. -/
def pieces (text : List Char) : List (List Char) := Text.split ';' (statementText text)

/-- Reads a program, each statement of which has a semicolon behind it. -/
def readProgram? (text : String) : Option Program :=
  let statements := (pieces text.toList).map tokensOf
  if statements.getLast? = some [] then
    statements.dropLast.mapM (readStatement? (statements.filterMap declaredVariable?))
  else none

end RoundRobin.Written
