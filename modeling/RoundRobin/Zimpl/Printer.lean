import RoundRobin.Text.Blank
import RoundRobin.Text.Split
import RoundRobin.Zimpl.Program

/-! The written form of Zimpl programs. Arithmetic is written with the parentheses that its value
needs; a sum or difference of variables is enclosed wherever it is an operand. -/

namespace RoundRobin.Zimpl

/-- Encloses a text of binding strength `level` where a strength of at least `least` is needed. -/
def enclose (least level : Nat) (text : String) : String :=
  if level < least then "(" ++ text ++ ")" else text

/-- How strongly arithmetic binds: sums and differences least, then products and quotients. -/
def Arith.level : Arith → Nat
  | .add _ _ | .sub _ _ => 1
  | .mul _ _ | .div _ _ => 2
  | _ => 3

/-- A product of sets binds more strongly than a difference and is not nested without
parentheses. -/
def SetTerm.isCompound : SetTerm → Bool
  | .product _ | .minus _ _ => true
  | _ => false

mutual

/-- The right operand of a difference or quotient binds more strongly than the operator; the
other operands bind at least as strongly. -/
def Arith.text : Arith → String
  | .int value => toString value
  | .name symbol => symbol
  | .add a b => enclose 1 a.level a.text ++ " + " ++ enclose 1 b.level b.text
  | .sub a b => enclose 1 a.level a.text ++ " - " ++ enclose 2 b.level b.text
  | .mul a b => enclose 2 a.level a.text ++ " * " ++ enclose 2 b.level b.text
  | .div a b => enclose 2 a.level a.text ++ " / " ++ enclose 3 b.level b.text
  | .floor a => "floor(" ++ a.text ++ ")"
  | .min a b => "min(" ++ a.text ++ ", " ++ b.text ++ ")"
  | .card set => "card(" ++ set.text ++ ")"

def Arith.texts : List Arith → List String
  | [] => []
  | a :: as => a.text :: Arith.texts as

def SetTerm.text : SetTerm → String
  | .name set => set
  | .member family index => family ++ "[" ++ index.text ++ "]"
  | .range first last => "\x7b " ++ first.text ++ " .. " ++ last.text ++ " \x7d"
  | .list elements => "\x7b" ++ ", ".intercalate (Arith.texts elements) ++ "\x7d"
  | .product factors => " * ".intercalate (SetTerm.factorTexts factors)
  | .minus a b => a.text ++ " \\ " ++ b.text
  | .builder index => "\x7b " ++ index.text ++ " \x7d"
  | .subsets set size => "subsets(" ++ set.text ++ ", " ++ toString size ++ ")"
  | .indexset family => "indexset(" ++ family ++ ")"

def SetTerm.factorTexts : List SetTerm → List String
  | [] => []
  | s :: ss => (if s.isCompound then "(" ++ s.text ++ ")" else s.text) :: SetTerm.factorTexts ss

def Index.text : Index → String
  | .mk symbols domain condition =>
    "<" ++ ",".intercalate symbols ++ "> in " ++ domain.text ++ condition.text

/-- A condition is written behind the domain that it filters. -/
def Condition.text : Condition → String
  | .always => ""
  | .ne a b => " with " ++ a.text ++ " != " ++ b.text
  | .lt a b => " with " ++ a.text ++ " < " ++ b.text

end

theorem Arith.texts_eq_map (as : List Arith) : Arith.texts as = as.map Arith.text := by
  induction as with
  | nil => rfl
  | cons a as ih => simp [Arith.texts, ih]

/-- How a term over variables is used: by itself, as an operand, or with a weight behind it. -/
inductive Use where
  | whole
  | operand
  | weighted (weight : Int)

/-- Writes a term in its use. Sums and differences are loose: they need parentheses unless they
stand by themselves. -/
def Use.write (loose : Bool) (text : String) : Use → String
  | .whole => text
  | .operand => if loose then "(" ++ text ++ ")" else text
  | .weighted weight => (if loose then "(" ++ text ++ ")" else text) ++ " * " ++ toString weight

mutual

/-- The weight of a sum over an index is written inside it, behind the innermost body. -/
def Linear.textFor : Linear → Use → String
  | .const value, use => use.write false value.text
  | .var name [], use => use.write false name
  | .var name subscripts, use =>
    use.write false (name ++ "[" ++ ",".intercalate (subscripts.map Arith.text) ++ "]")
  | .sum terms, use => use.write true (" + ".intercalate (Linear.texts terms))
  | .diff a b, use => use.write true (a.textFor .whole ++ " - " ++ b.textFor .operand)
  | .scaled factor term, use =>
    use.write false (enclose 3 factor.level factor.text ++ " * " ++ term.textFor .operand)
  | .weighted term weight, use => use.write false (term.textFor (.weighted weight))
  | .sumOver index body, .weighted weight =>
    "sum " ++ index.text ++ ": " ++ body.textFor (.weighted weight)
  | .sumOver index body, _ => "sum " ++ index.text ++ ": " ++ body.textFor .operand
  | .abs term, use => use.write false ("vabs(" ++ term.textFor .whole ++ ")")

def Linear.texts : List Linear → List String
  | [] => []
  | term :: terms => term.textFor .whole :: Linear.texts terms

end

def Linear.text (term : Linear) : String := term.textFor .whole

theorem Linear.texts_eq_map (terms : List Linear) : Linear.texts terms = terms.map Linear.text := by
  induction terms with
  | nil => rfl
  | cons term terms ih => simp [Linear.texts, Linear.text, ih]

def Relation.text : Relation → String
  | .le => "<="
  | .ge => ">="
  | .eq => "=="

def Row.text (row : Row) : String :=
  row.lhs.text ++ " " ++ row.relation.text ++ " " ++ row.rhs.text

/-- The blank start of a line at a depth of nesting. -/
def indent (depth : Nat) : String := String.join (List.replicate depth "   ")

/-- The `forall` lines of a block, from a depth of nesting on. -/
def forallLines (depth : Nat) : List Index → String
  | [] => ""
  | index :: rest =>
    indent depth ++ "forall " ++ index.text ++ ":\n" ++ forallLines (depth + 1) rest

def Subto.text (block : Subto) : String :=
  let margin := indent (block.foralls.length + 1)
  let rows := ("\n" ++ margin ++ "and ").intercalate (block.rows.map Row.text)
  "subto " ++ block.name ++ ":\n" ++ forallLines 1 block.foralls
    ++ (if block.rows.isEmpty then "" else margin) ++ rows ++ ";"

def VarIndex.text : VarIndex → String
  | .scalar => ""
  | .over set => "[" ++ set.text ++ "]"
  | .bound index => "[" ++ index.text ++ "]"

def VarDomain.text : VarDomain → String
  | .binary => " binary"
  | .integer => " integer"
  | .real => ""

/-- A bound of a variable, written only where there is one. -/
def boundText (relation : Relation) : Option Arith → String
  | none => ""
  | some bound => " " ++ relation.text ++ " " ++ bound.text

def VarDecl.text (decl : VarDecl) : String :=
  "var " ++ decl.name ++ decl.index.text ++ decl.domain.text ++ boundText .ge decl.lower
    ++ boundText .le decl.upper ++ ";"

def Direction.text : Direction → String
  | .minimize => "minimize"
  | .maximize => "maximize"

def Objective.text (goal : Objective) : String :=
  goal.direction.text ++ " " ++ goal.name ++ ": "
    ++ ("\n" ++ indent 1 ++ "+ ").intercalate (goal.terms.map Linear.text) ++ ";"

/-- A comment has a line for each line of its text. -/
def commentText (text : String) : String :=
  "\n".intercalate ((Text.lines text.toList).map fun line =>
    String.ofList (Text.trimEnd ('#' :: ' ' :: line)))

def Statement.text : Statement → String
  | .comment text => commentText text
  | .blank => ""
  | .param name value => "param " ++ name ++ " := " ++ value.text ++ ";"
  | .set name value => "set " ++ name ++ " := " ++ value.text ++ ";"
  | .setFamily name value => "set " ++ name ++ "[] := " ++ value.text ++ ";"
  | .var decl => decl.text
  | .subto block => block.text
  | .objective goal => goal.text

/-- Each statement is followed by a line feed. -/
def Program.text (program : Program) : String :=
  String.join (program.map fun statement => statement.text ++ "\n")

end RoundRobin.Zimpl
