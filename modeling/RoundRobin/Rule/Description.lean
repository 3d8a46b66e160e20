import RoundRobin.Rule.Basic

/-! The written form of a rule: the tag of its kind and its attributes, each as `key=value`. These
are the attributes with which an element of the kind reads as the rule. -/

namespace RoundRobin

def Side.code : Side → String
  | .home => "H"
  | .away => "A"
  | .both => "HA"

def Scope.code : Scope → String
  | .global => "GLOBAL"
  | .every => "EVERY"

/-- Ids as the value of an attribute. -/
def idList (ids : List Int) : String := ";".intercalate (ids.map toString)

def Match.code (game : Match) : String := toString game.home ++ "," ++ toString game.away

def Strength.attributes : Strength → List (String × String)
  | .hard => [("type", "HARD")]
  | .soft penalty => [("type", "SOFT"), ("penalty", toString penalty)]

def Demand.attributes : Demand → List (String × String)
  | .ca1 d =>
    [("mode", d.side.code), ("teams", idList d.teams), ("slots", idList d.slots),
      ("min", toString d.min), ("max", toString d.max)]
  | .ca2 d =>
    [("mode1", d.side.code), ("mode2", "GLOBAL"), ("teams1", idList d.teams),
      ("teams2", idList d.opponents), ("slots", idList d.slots), ("min", toString d.min),
      ("max", toString d.max)]
  | .ca3 d =>
    [("mode1", d.side.code), ("mode2", "SLOTS"), ("intp", toString d.window),
      ("teams1", idList d.teams), ("teams2", idList d.opponents), ("min", toString d.min),
      ("max", toString d.max)]
  | .ca4 d =>
    [("mode1", d.side.code), ("mode2", d.scope.code), ("teams1", idList d.teams),
      ("teams2", idList d.opponents), ("slots", idList d.slots), ("min", toString d.min),
      ("max", toString d.max)]
  | .ga1 d =>
    [("meetings", ";".intercalate (d.meetings.map Match.code)), ("slots", idList d.slots),
      ("min", toString d.min), ("max", toString d.max)]
  | .se1 d => [("mode1", "SLOTS"), ("teams", idList d.teams), ("min", toString d.min)]
  | .br1 d =>
    [("mode1", "LEQ"), ("mode2", d.side.code), ("teams", idList d.teams),
      ("slots", idList d.slots), ("intp", toString d.limit)]
  | .br2 d =>
    [("homeMode", "HA"), ("mode2", "LEQ"), ("teams", idList d.teams), ("slots", idList d.slots),
      ("intp", toString d.limit)]
  | .fa2 d =>
    [("mode", "H"), ("teams", idList d.teams), ("slots", idList d.slots),
      ("intp", toString d.limit)]

def Rule.attributes (rule : Rule) : List (String × String) :=
  rule.strength.attributes ++ rule.demand.attributes

/-- The rule on one line. -/
def Rule.text (rule : Rule) : String :=
  " ".intercalate (rule.kind.tag :: rule.attributes.map fun (key, value) => key ++ "=" ++ value)

end RoundRobin
