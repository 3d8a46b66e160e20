import RoundRobin.Markup.Remark

/-! What may precede the root element: a byte order mark, the XML declaration, a document type
without declarations of its own, and remarks and spaces. Nothing of it is kept. -/

namespace RoundRobin.Markup

/-- Steps over a byte order mark, if there is one. -/
def skipByteOrderMark : List Char → List Char
  | '\uFEFF' :: cs => cs
  | cs => cs

/-- Steps over the equals sign and the quoted value of a part of the declaration. -/
def declarationValue? (valid : List Char → Bool) (cs : List Char) : Option (List Char) := do
  let (value, cs) ← quoted? (fun _ => true) (← equals? cs)
  if valid value then return cs else none

/-- A space separates the parts of the declaration. -/
def separated? (cs : List Char) : Option (List Char) :=
  if startsWithSpace cs || (expect? "?>" cs).isSome || cs.isEmpty then some (skipSpaces cs)
  else none

/-- Versions are `1.` and further digits. -/
def isVersion : List Char → Bool
  | '1' :: '.' :: digits => digits.all Char.isDigit
  | _ => false

def isEncodingName (cs : List Char) : Bool :=
  cs.all fun c => c.isAlphanum || c = '.' || c = '-' || c = '_'

def isYesOrNo (cs : List Char) : Bool := cs = "yes".toList || cs = "no".toList

/-- Steps over the XML declaration, if there is one. It starts the document and gives a version,
then an encoding if it likes, then whether the document stands alone if it likes. -/
def skipDeclaration? (cs : List Char) : Option (List Char) :=
  match expect? "<?xml " cs with
  | none => some cs
  | some cs => do
    let cs ← expect? "version" (skipSpaces cs)
    let cs ← separated? (← declarationValue? isVersion cs)
    let cs ← match expect? "encoding" cs with
      | some cs => separated? (← declarationValue? isEncodingName cs)
      | none => some cs
    let cs ← match expect? "standalone" cs with
      | some cs => declarationValue? isYesOrNo cs
      | none => some cs
    expect? "?>" (skipSpaces cs)

/-- Steps over remarks and spaces. -/
def skipRemarks? (cs : List Char) : Option (List Char) :=
  match cs with
  | [] => some []
  | c :: cs =>
    if isSpace c then skipRemarks? cs
    else if (expect? "<!--" (c :: cs)).isSome || (expect? "<?" (c :: cs)).isSome then
      match _h : remark? (c :: cs) with
      | some rest => skipRemarks? rest
      | none => none
    else some (c :: cs)
termination_by cs.length
decreasing_by
  · simp
  · exact length_of_remark? _h

/-- Takes a space and a quoted literal of a document type. -/
def skipLiteral? (cs : List Char) : Option (List Char) :=
  if !startsWithSpace cs then none else Prod.snd <$> quoted? (fun _ => true) (skipSpaces cs)

/-- Steps over the external id of a document type, if there is one. -/
def skipExternalId? (cs : List Char) : Option (List Char) :=
  match expect? "SYSTEM" cs, expect? "PUBLIC" cs with
  | some cs, _ => skipLiteral? cs
  | none, some cs => skipLiteral? cs >>= skipLiteral?
  | none, none => some cs

/-- Steps over a document type, if there is one. One with declarations of its own is refused. -/
def skipDoctype? (cs : List Char) : Option (List Char) :=
  match expect? "<!DOCTYPE" cs with
  | none => some cs
  | some cs =>
    if !startsWithSpace cs then none
    else do
      let cs ← skipName? (skipSpaces cs)
      let cs ← skipExternalId? (skipSpaces cs)
      expect? ">" (skipSpaces cs)

/-- Steps over all that precedes the root element. -/
def skipProlog? (cs : List Char) : Option (List Char) := do
  let cs ← skipDeclaration? (skipByteOrderMark cs)
  let cs ← skipDoctype? (← skipRemarks? cs)
  skipRemarks? cs

end RoundRobin.Markup
