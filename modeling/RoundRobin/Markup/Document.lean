import RoundRobin.Markup.Namespace
import RoundRobin.Markup.Prolog
import RoundRobin.Markup.Token
import RoundRobin.Markup.Tree

/-! Documents read from text. Tokens build the tree from the outside in: each start tag opens an
element inside the one that is open, and its end tag closes it. Elements that are open at the end of
the input stay in the tree as they are. -/

namespace RoundRobin.Markup

/-- An open element. Its children are in reverse order. -/
structure Frame where
  name : Name
  attributes : List (String × String)
  scope : Namespaces
  /-- The start tag. -/
  span : Span
  children : List Node

/-- The element that a frame is for, with what stands behind it. -/
def Frame.toElement (frame : Frame) (behind : List Char) : Element :=
  ⟨frame.name.base, frame.attributes, frame.children.reverse, { frame.span with behind }⟩

/-- A tree that grows: the open elements, the innermost first, or the root once it is closed. -/
structure Growth where
  frames : List Frame
  root : Option Element

namespace Growth

def scope (growth : Growth) : Namespaces :=
  match growth.frames with
  | frame :: _ => frame.scope
  | [] => []

/-- Changes the children of the innermost open element. -/
def inside (growth : Growth) (change : List Node → List Node) : Growth :=
  match growth.frames with
  | frame :: frames =>
    { growth with frames := { frame with children := change frame.children } :: frames }
  | [] => growth

/-- Puts a whole element into the innermost open one, or makes it the root. -/
def attach (growth : Growth) (element : Element) : Growth :=
  match growth.frames with
  | [] => { growth with root := some element }
  | _ => growth.inside (.element element :: ·)

/-- The frame of a start tag in a scope, once its names are declared and distinct. -/
def frame? (scope : Namespaces) (name : Name) (attributes : List Attribute) (span : Span) :
    Option Frame := do
  let attributes ← plainAttributes? scope attributes
  if name.qualifier = "" ∨ (scope.lookup name.qualifier).isSome then
    return { name, attributes, scope, span, children := [] }
  else none

def start? (growth : Growth) (name : Name) (raws : List RawAttribute) (ending : TagEnd)
    (span : Span) : Option Growth := do
  if name.qualifier = "xmlns" then none
  let attributes ← resolveValues? raws
  let declared ← declarations? attributes
  match ending with
  | .missing => return growth
  | .content =>
    let frame ← frame? (declared ++ growth.scope) name attributes span
    return { growth with frames := frame :: growth.frames }
  | .empty =>
    let frame ← frame? (declared ++ growth.scope) name attributes span
    return growth.attach (frame.toElement span.behind)

def stop? (growth : Growth) (name : Name) (span : Span) : Option Growth :=
  match growth.frames with
  | frame :: frames =>
    if frame.name = name then
      some ({ growth with frames }.attach (frame.toElement span.behind))
    else none
  | [] => none

def step? (growth : Growth) (placed : Placed) : Option Growth :=
  match placed.token with
  | .start name raws ending => growth.start? name raws ending placed.span
  | .stop name => growth.stop? name placed.span
  | .text raw => (textContent? raw).map fun content => growth.inside (Node.addText content)
  | .cdata content => some (growth.inside (Node.addText (String.ofList content)))
  | .remark => some (growth.inside (.remark :: ·))

/-- The root at the end of the input. The elements that are still open span their start tags. -/
def finish (growth : Growth) : Option Element :=
  growth.frames.foldl
    (fun inner frame =>
      let children := (inner.map Node.element).toList ++ frame.children
      some ({ frame with children }.toElement frame.span.behind))
    growth.root

end Growth

/-- The root element that some tokens build, if they fit together. -/
def Element.ofTokens? (tokens : List Placed) : Option Element := do
  let growth ← tokens.foldlM Growth.step? ⟨[], none⟩
  growth.finish

/-- A document: its text and its root element. -/
structure Document where
  text : List Char
  root : Element

/-- The text before a piece of a document. -/
def Document.before (document : Document) (span : Span) : List Char :=
  document.text.take (document.text.length - span.start.length)

/-- Reads a document: its prolog, the tokens of its root element, and remarks behind it. -/
def Document.read? (text : String) : Option Document := do
  let cs := text.toList
  let body ← skipProlog? cs
  let (tokens, behind) ← if body.head? = some '<' then tokens? 0 body else none
  let root ← Element.ofTokens? tokens
  match ← skipRemarks? behind with
  | [] => return { text := cs, root }
  | _ => none

/-- The line, from one, on which the text behind some characters stands. -/
def lineAfter (cs : List Char) : Nat := cs.count '\n' + 1

/-- The column, from one, at which the text behind some characters stands. -/
def columnAfter (cs : List Char) : Nat := (cs.reverse.takeWhile (· ≠ '\n')).length + 1

end RoundRobin.Markup
