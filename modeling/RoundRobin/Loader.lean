import RoundRobin.IdSet
import RoundRobin.Markup.Document
import RoundRobin.Note
import RoundRobin.Rule.Reader
import RoundRobin.Tournament

/-! Tournaments read from documents. The ids of teams and slots have to be the first natural
numbers, in any order; the rules are read in document order, and an element that is no rule is
skipped. -/

namespace RoundRobin

open Markup

/-- The text at the start of the first element with a tag, without blanks around it. -/
def elementText? (root : Element) (tag : String) : Option String :=
  ((root.find? tag).bind Element.leadingText?).map fun text =>
    String.ofList (Text.trim text.toList)

def Resource.readId (resource : Resource) (element : Element) : Except Failure Int :=
  match element.attribute? "id" with
  | none => .error (.structural (.resourceWithoutId resource))
  | some value =>
    match Text.integer? idLimit (Text.trim value.toList) with
    | some id => .ok id
    | none => .error (.structural (.malformedId resource value))

/-- The ids of a resource in document order. In ascending order they count up from zero. -/
def Resource.readIds (resource : Resource) (root : Element) : Except Failure (List Int) := do
  let ids ← (root.findAll resource.tag).mapM resource.readId
  if ids = [] then .error (.missingElement resource)
  else if ascending ids = Tournament.firstIds ids.length then .ok ids
  else .error (.structural (.idsWithGaps resource ids))

/-- The teams and the slots, of which the teams are even in number. -/
structure Universe where
  teams : List Int
  slots : List Int

def Universe.read (root : Element) : Except Failure Universe := do
  let teams ← Resource.team.readIds root
  let slots ← Resource.slot.readIds root
  if teams.length < 2 ∨ teams.length % 2 ≠ 0 then
    .error (.structural (.oddTeamCount teams.length))
  else .ok { teams, slots }

/-- Whether there are as many slots as a double round robin needs at least. -/
def Universe.isCompact (u : Universe) : Bool := u.slots.length = 2 * (u.teams.length - 1)

/-- The elements that may be rules: those of the first group of constraints, at any depth. -/
def ruleElements (root : Element) : List Element :=
  match root.childElements.find? (·.tag == "Constraints") with
  | some group => group.descendants
  | none => []

/-- Reads an element as a rule about existing teams and slots, if its tag names a rule. -/
def Universe.readRule? (u : Universe) (element : Element) : Except Failure (Option Rule) := do
  match ← Rule.read? element.tag element.attributes with
  | some rule =>
    rule.checkIds u.teams.length u.slots.length
    return some rule
  | none => return none

def isPhased (root : Element) : Bool := elementText? root "gameMode" = some "P"

/-- Reads a tournament from the root of a document. -/
def Tournament.ofElement (root : Element) : Except Failure Tournament := do
  let u ← Universe.read root
  let rules ← (ruleElements root).mapM u.readRule?
  return {
    name := elementText? root "InstanceName"
    teams := u.teams
    slots := u.slots
    phased := isPhased root
    rules := rules.filterMap id }

/-- Whether an element looks closed: it ends as an empty tag does, or there is an end tag in it. -/
def Markup.Element.looksClosed (element : Element) : Bool :=
  "/>".toList.isSuffixOf element.span.text || occurs "</" element.span.text

/-- Looks for an element in which the document ends. The first in document order is the failure. -/
def Markup.Document.checkClosed (document : Document) : Except Failure Unit :=
  match document.root.descendants.find? fun element => !element.looksClosed with
  | some element =>
    let before := document.before element.span
    .error (.unclosed element.tag (lineAfter before) (columnAfter before))
  | none => .ok ()

/-- Reads a tournament from a document that does not end inside an element. -/
def Tournament.ofDocument (document : Document) : Except Failure Tournament := do
  document.checkClosed
  Tournament.ofElement document.root

/-- What gives the document that a text is, if it is one. -/
abbrev Markup.Reader := String → Option Document

/-- Reads a tournament from a text by a reader of documents. -/
def Tournament.readBy (read? : Reader) (text : String) : Except Failure Tournament :=
  match read? text with
  | some document => Tournament.ofDocument document
  | none => .error .malformedMarkup

def Tournament.read : String → Except Failure Tournament := Tournament.readBy Document.read?

/-- The notes on the elements that may be rules, up to the first that fails. -/
def Universe.ruleNotes (u : Universe) (elements : List Element) : List Note :=
  match elements with
  | [] => []
  | element :: elements =>
    match u.readRule? element with
    | .error _ => []
    | .ok (some _) => u.ruleNotes elements
    | .ok none =>
      if element.children.isEmpty then .elementSkipped element.tag :: u.ruleNotes elements
      else u.ruleNotes elements

/-- The notes on reading a tournament from the root of a document. -/
def Tournament.elementNotes (root : Element) : List Note :=
  let rootNotes := if root.tag = "Instance" then [] else [.otherRoot root.tag]
  let roundNotes := match elementText? root "numberRoundRobin" with
    | some rounds => if rounds = "2" then [] else [.otherRounds rounds]
    | none => []
  let universeNotes := match Universe.read root with
    | .error _ => []
    | .ok u =>
      (if u.isCompact then [] else [.notCompact u.teams.length u.slots.length])
        ++ [.teams u.teams, .slots u.slots, .phased (isPhased root)]
        ++ u.ruleNotes (ruleElements root)
        ++ (match Tournament.ofElement root with
          | .ok tournament => [.rulesLoaded tournament.rules.length]
          | .error _ => [])
  .documentParsed :: rootNotes ++ roundNotes ++ universeNotes

/-- The notes on reading a tournament from a text. There are none on a text that is no whole
document. -/
def Tournament.readNotesBy (read? : Reader) (text : String) : List Note :=
  match read? text with
  | some document =>
    match document.checkClosed with
    | .ok _ => Tournament.elementNotes document.root
    | .error _ => []
  | none => []

def Tournament.readNotes : String → List Note := Tournament.readNotesBy Document.read?

end RoundRobin
