import RoundRobin.Markup.Char
import RoundRobin.Text.Split

/-! References inside text and attribute values. A reference stands between an ampersand and a
semicolon and names one character, by its code point or by one of five words. -/

namespace RoundRobin.Markup

/-- A character of a text, as it is written in the document. -/
inductive Piece where
  | literal (c : Char)
  | referenced (c : Char)
deriving DecidableEq, Repr

def hexDigit? (c : Char) : Option Nat :=
  if c.isDigit then some (c.toNat - '0'.toNat)
  else if 'a' ≤ c ∧ c ≤ 'f' then some (c.toNat - 'a'.toNat + 10)
  else if 'A' ≤ c ∧ c ≤ 'F' then some (c.toNat - 'A'.toNat + 10)
  else none

def decimalDigit? (c : Char) : Option Nat :=
  if c.isDigit then some (c.toNat - '0'.toNat) else none

/-- The number with these digits in a base; a number has at least one digit. -/
def codePoint? (base : Nat) (digit? : Char → Option Nat) (cs : List Char) : Option Nat :=
  if cs = [] then none
  else (cs.mapM digit?).map fun digits => digits.foldl (fun value digit => base * value + digit) 0

/-- The character at a code point of at most 32 bits. Where there is none, the replacement
character stands for it. -/
def charAt? (codePoint : Nat) : Option Char :=
  if codePoint < 1 <<< 32 then
    let c := if codePoint.isValidChar then Char.ofNat codePoint else '\uFFFD'
    if isXmlChar c then some c else none
  else none

/-- The character that a reference names. -/
def referenceTo? : List Char → Option Char
  | '#' :: 'x' :: digits => codePoint? 16 hexDigit? digits >>= charAt?
  | '#' :: digits => codePoint? 10 decimalDigit? digits >>= charAt?
  | name =>
    match String.ofList name with
    | "quot" => some '"'
    | "amp" => some '&'
    | "apos" => some '\''
    | "lt" => some '<'
    | "gt" => some '>'
    | _ => none

/-- The pieces of a text that starts inside a reference. -/
def afterAmpersand? (cs : List Char) : Option (List Piece) :=
  match cs.dropWhile (· ≠ ';') with
  | _ :: rest => (referenceTo? (cs.takeWhile (· ≠ ';'))).map fun c =>
      .referenced c :: rest.map .literal
  | [] => none

/-- The pieces of a text; there are none if one of its references is malformed. -/
def pieces? (cs : List Char) : Option (List Piece) :=
  match Text.split '&' cs with
  | [] => some []
  | first :: rest => (rest.mapM afterAmpersand?).map fun parts =>
      first.map .literal ++ parts.flatten

/-- The value of an attribute: a space stands for each literal tab or line end, of which a carriage
return with a line feed is one. -/
def spacedValue : List Piece → List Char
  | [] => []
  | .literal '\r' :: .literal '\n' :: rest => ' ' :: spacedValue rest
  | .literal c :: rest => (if c = '\t' ∨ c = '\n' ∨ c = '\r' then ' ' else c) :: spacedValue rest
  | .referenced c :: rest => c :: spacedValue rest

/-- A text run with its line ends written as line feeds. A carriage return right before a reference
stays as it is, and so does one at the end of the run that stands right behind a reference. -/
def lineEnds (afterReference : Bool) : List Piece → List Char
  | [] => []
  | .literal '\r' :: .literal '\n' :: rest => '\n' :: lineEnds false rest
  | .literal '\r' :: .literal c :: rest => '\n' :: lineEnds false (.literal c :: rest)
  | [.literal '\r'] => [if afterReference then '\r' else '\n']
  | .literal c :: rest => c :: lineEnds false rest
  | .referenced c :: rest => c :: lineEnds true rest

/-- Reads the raw value of an attribute. -/
def attributeValue? (raw : List Char) : Option String :=
  (pieces? raw).map fun pieces => String.ofList (spacedValue pieces)

/-- Reads a raw text run. -/
def textContent? (raw : List Char) : Option String :=
  (pieces? raw).map fun pieces => String.ofList (lineEnds false pieces)

end RoundRobin.Markup
