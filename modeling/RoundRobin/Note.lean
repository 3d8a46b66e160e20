import RoundRobin.Failure

/-! Notes on what is done on the way from a document to a program, each with a level and a
wording. -/

namespace RoundRobin

/-- How much a note matters. -/
inductive Level where
  | warn | info | debug
deriving DecidableEq, Repr, Inhabited

def Level.rank : Level → Nat
  | .warn => 0
  | .info => 1
  | .debug => 2

inductive Note where
  | documentParsed
  | otherRoot (tag : String)
  | otherRounds (rounds : String)
  | notCompact (teamCount slotCount : Nat)
  | teams (ids : List Int)
  | slots (ids : List Int)
  | phased (halves : Bool)
  | elementSkipped (tag : String)
  | rulesLoaded (count : Nat)
  | formulating (teamCount slotCount ruleCount : Nat)
  | oddSets (name : String) (size : Nat)
  | gameVariables (count : Nat)
  /-- A rule is about to be formulated. -/
  | rule (text : String)
  /-- A rule that covers the first slot only asks for nothing. -/
  | firstSlotOnly (name : String)
  /-- A rule on a block of one slot asks for nothing. -/
  | singleSlot (name : String)
  | numbered (kind : Kind) (count : Nat)
  | chargesDropped
  | charges (count : Nat)
  | cutoffIgnored (count skipped : Nat)
deriving DecidableEq, Repr

namespace Note

def level : Note → Level
  | otherRoot _ | otherRounds _ | notCompact _ _ | cutoffIgnored _ _ => .warn
  | documentParsed | teams _ | slots _ | phased _ | rulesLoaded _ | formulating _ _ _
  | gameVariables _ | chargesDropped | charges _ => .info
  | elementSkipped _ | oddSets _ _ | rule _ | firstSlotOnly _ | singleSlot _ | numbered _ _ =>
    .debug

def text : Note → String
  | documentParsed => "Parsed document"
  | otherRoot tag => "Root element is <" ++ tag ++ ">, expected <Instance>"
  | otherRounds rounds =>
    "numberRoundRobin is " ++ rounds ++ ", the model assumes a double round robin"
  | notCompact teamCount slotCount =>
    toString teamCount ++ " teams and " ++ toString slotCount
      ++ " slots is not a compact double round robin"
  | teams ids => "teams: " ++ idsText ids
  | slots ids => "slots: " ++ idsText ids
  | phased halves => "PHASED: " ++ if halves then "true" else "false"
  | elementSkipped tag => "Skipping unhandled constraint <" ++ tag ++ ">"
  | rulesLoaded count => "Loaded " ++ toString count ++ " constraints"
  | formulating teamCount slotCount ruleCount =>
    "Compiling " ++ toString teamCount ++ " teams, " ++ toString slotCount ++ " slots, "
      ++ toString ruleCount ++ " constraints"
  | oddSets name size =>
    "Adding odd set inequalities " ++ name ++ " over subsets of size " ++ toString size
  | gameVariables count => "Base model: " ++ toString count ++ " x variables"
  | rule text => text
  | firstSlotOnly name => name ++ " only covers slot 0, nothing to emit"
  | singleSlot name => name ++ " covers a single slot, nothing to emit"
  | numbered kind count => kind.tag ++ ": " ++ toString count ++ " numbered"
  | chargesDropped => "Penalty terms are dropped in favour of the feasibility objective"
  | charges count => "Objective has " ++ toString count ++ " penalty terms"
  | cutoffIgnored count skipped =>
    "Objective cutoff ignored, only " ++ toString count ++ " penalty terms and "
      ++ toString skipped ++ " are skipped"

/-- The notes of a level and of those that matter more. -/
def upTo (level : Level) (notes : List Note) : List Note :=
  notes.filter fun note => note.level.rank ≤ level.rank

end Note

end RoundRobin
