import RoundRobin.Rule.Kind

/-! Everything that can stop a tournament from being read or written as a Zimpl program, and the
wording of each cause. -/

namespace RoundRobin

/-- What a tournament lists by ids. -/
inductive Resource where
  | team | slot
deriving DecidableEq, Repr, Inhabited

def Resource.tag : Resource → String
  | .team => "team"
  | .slot => "slot"

/-- A list of ids as it is shown to a reader. -/
def idsText (ids : List Int) : String := "[" ++ ", ".intercalate (ids.map toString) ++ "]"

/-- A tournament whose parts do not fit together. -/
inductive Defect where
  | resourceWithoutId (resource : Resource)
  | malformedId (resource : Resource) (value : String)
  /-- The ids of a resource are not the first natural numbers. -/
  | idsWithGaps (resource : Resource) (ids : List Int)
  | oddTeamCount (count : Nat)
  | unknownId (kind : Kind) (resource : Resource) (id : Int)
  | selfMeeting (kind : Kind) (meeting : String)
  | noMeetings (kind : Kind) (number : Nat)
  | slotsWithGaps (kind : Kind) (slots : List Int)
deriving DecidableEq, Repr

def Defect.message : Defect → String
  | .resourceWithoutId resource => "<" ++ resource.tag ++ "> without id"
  | .malformedId resource value => "<" ++ resource.tag ++ "> has malformed id \"" ++ value ++ "\""
  | .idsWithGaps resource ids =>
    resource.tag ++ " ids must be exactly 0.." ++ toString ids.length ++ ", got " ++ idsText ids
  | .oddTeamCount count => "need an even number of teams, got " ++ toString count
  | .unknownId kind resource id =>
    kind.tag ++ " refers to unknown " ++ resource.tag ++ " " ++ toString id
  | .selfMeeting kind meeting =>
    kind.tag ++ " meeting " ++ meeting ++ " has the same team on both sides"
  | .noMeetings kind number => kind.tag ++ " #" ++ toString number ++ " lists no meetings"
  | .slotsWithGaps kind slots => kind.tag ++ " slots " ++ idsText slots ++ " are not consecutive"

inductive Failure where
  | unreadable
  | malformedMarkup
  /-- The document ends inside an element that opens at this line and column. -/
  | unclosed (tag : String) (line column : Nat)
  | missingElement (resource : Resource)
  | missingAttribute (kind : Kind) (name : String)
  | malformedAttribute (kind : Kind) (name value : String)
  /-- A well-formed value that no rule of the kind can be written with. -/
  | unsupportedAttribute (kind : Kind) (name value : String)
  | structural (defect : Defect)
deriving DecidableEq, Repr

def Failure.message : Failure → String
  | .unreadable => "could not read instance"
  | .malformedMarkup => "could not parse instance xml"
  | .unclosed tag line column =>
    "document ends inside <" ++ tag ++ "> opened at " ++ toString line ++ ":" ++ toString column
  | .missingElement resource => "instance has no <" ++ resource.tag ++ "> elements"
  | .missingAttribute kind name => kind.tag ++ " is missing attribute \x60" ++ name ++ "\x60"
  | .malformedAttribute kind name value =>
    kind.tag ++ " has malformed attribute " ++ name ++ "=\"" ++ value ++ "\""
  | .unsupportedAttribute kind name value =>
    "unhandled " ++ name ++ "=\"" ++ value ++ "\" in " ++ kind.tag
  | .structural defect => "invalid instance structure: " ++ defect.message

end RoundRobin
