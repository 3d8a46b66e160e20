import RoundRobin.CommandLine.Argument
import RoundRobin.Formulation.Options
import RoundRobin.Note
import RoundRobin.Text.Numeral

/-! Requests: the file to read, how to formulate what it holds, and which notes to show. A request
is read from the arguments of a command line. -/

namespace RoundRobin.CommandLine

structure Request where
  file : String
  options : Options
  /-- The least level of notes that are shown, if any are. -/
  level : Option Level
deriving DecidableEq, Repr

/-- Cutoffs are below this number, and not below its negative. -/
def cutoffLimit : Nat := 1 <<< 63

/-- Numbers of skipped charges are below this number. -/
def skipLimit : Nat := 1 <<< 64

namespace Argument

def file? : Argument → Option String
  | file path => some path
  | _ => none

/-- The value of an argument for a setting. -/
def value? (setting : Setting) : Argument → Option String
  | Argument.setting other value => if other = setting then value else none
  | _ => none

/-- The name of an argument that may be given once only. -/
def uniqueName? : Argument → Option String
  | switch .verbose => none
  | switch s => some s.name
  | setting s _ => some s.name
  | file _ => none

end Argument

/-- Each switch and setting is given once at most, and only one choice of odd sets. -/
def isConsistent (arguments : List Argument) : Bool :=
  (arguments.filterMap Argument.uniqueName?).Nodup
    ∧ ¬(.switch .oddTriples ∈ arguments ∧ .switch .oddSets ∈ arguments)

/-- The notes to show: each repetition of a switch adds a level, and another switch hides all. -/
def levelOf (arguments : List Argument) : Option Level :=
  if .switch .quiet ∈ arguments then none
  else match arguments.count (.switch .verbose) with
    | 0 => none
    | 1 => some .warn
    | 2 => some .info
    | _ => some .debug

def oddSetsOf (arguments : List Argument) : OddSets :=
  if .switch .oddTriples ∈ arguments then .three
  else if .switch .oddSets ∈ arguments then .all
  else .none

/-- The cutoff of some arguments, unless a number of theirs is malformed. -/
def cutoffOf? (arguments : List Argument) : Option (Option Cutoff) := do
  let value ← (arguments.findSome? (Argument.value? .cutoff)).mapM fun text =>
    Text.integer? cutoffLimit text.toList
  let skip ← (arguments.findSome? (Argument.value? .cutoffSkip)).mapM fun text =>
    Text.natural? skipLimit text.toList
  return value.map fun value => { value, skip := skip.getD Cutoff.defaultSkip }

def optionsOf? (arguments : List Argument) : Option Options :=
  (cutoffOf? arguments).map fun cutoff =>
    { soft := .switch .hardOnly ∉ arguments
      symmetric := .switch .symmetric ∈ arguments
      feasibility := .switch .feasibility ∈ arguments
      oddSets := oddSetsOf arguments
      fixGameCount := .switch .fixedCount ∈ arguments
      cutoff
      minPenalty := if .switch .separateMinimum ∈ arguments then .separate else .shared }

/-- The request that some arguments make. There has to be exactly one file. -/
def Request.ofArguments? (arguments : List Argument) : Option Request :=
  match arguments.filterMap Argument.file? with
  | [file] =>
    if isConsistent arguments then
      (optionsOf? arguments).map fun options => { file, options, level := levelOf arguments }
    else none
  | _ => none

/-- Reads the words of a command line as a request. -/
def Request.read? (words : List String) : Option Request :=
  (Argument.readAll? words).bind Request.ofArguments?

end RoundRobin.CommandLine
