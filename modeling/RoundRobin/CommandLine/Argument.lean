/-! Arguments of the command line: switches, settings with a value, and files. A switch or setting
is spelled with its name behind hyphens. -/

namespace RoundRobin.CommandLine

inductive Switch where
  | verbose
  | quiet
  /-- Leave out soft rules. -/
  | hardOnly
  | symmetric
  | feasibility
  | oddTriples
  | oddSets
  | fixedCount
  | separateMinimum
deriving DecidableEq, Repr

namespace Switch

def all : List Switch :=
  [.verbose, .quiet, .hardOnly, .symmetric, .feasibility, .oddTriples, .oddSets, .fixedCount,
    .separateMinimum]

def name : Switch → String
  | verbose => "verbose"
  | quiet => "quiet"
  | hardOnly => "nosoft"
  | symmetric => "sym"
  | feasibility => "feasopt"
  | oddTriples => "odd3"
  | oddSets => "oddall"
  | fixedCount => "xcount"
  | separateMinimum => "ga1-separate-min"

def ofName? (name : String) : Option Switch := all.find? (·.name = name)

/-- No two switches have the same name. -/
theorem ofName?_name (s : Switch) : ofName? s.name = some s := by
  cases s <;> decide

end Switch

/-- What is set to a number. -/
inductive Setting where
  | cutoff
  | cutoffSkip
deriving DecidableEq, Repr

namespace Setting

def all : List Setting := [.cutoff, .cutoffSkip]

def name : Setting → String
  | cutoff => "objcut"
  | cutoffSkip => "objcut-skip"

def ofName? (name : String) : Option Setting := all.find? (·.name = name)

/-- No two settings have the same name, and none that of a switch. -/
theorem ofName?_name (s : Setting) : ofName? s.name = some s ∧ Switch.ofName? s.name = none := by
  cases s <;> decide

/-- Whether a setting may lack its value, and then keeps its default. -/
def hasDefault : Setting → Bool
  | cutoff => false
  | cutoffSkip => true

end Setting

inductive Argument where
  | switch (switch : Switch)
  | setting (setting : Setting) (value : Option String)
  | file (path : String)
deriving DecidableEq, Repr

/-- The form of a word on the command line. -/
inductive Word where
  /-- Two hyphens: all words behind are files. -/
  | separator
  /-- A name behind two hyphens or more, with what follows an equals sign. -/
  | long (name : String) (value : Option String)
  /-- Letters behind one hyphen. -/
  | short (letters : List Char)
  | plain
deriving DecidableEq, Repr

/-- The form of a word. A hyphen alone is plain; of several equals signs in a row, all belong to the
cut between a name and its value. -/
def Word.of : List Char → Word
  | ['-', '-'] => .separator
  | '-' :: '-' :: cs =>
    let named := cs.dropWhile (· = '-')
    let name := String.ofList (named.takeWhile (· ≠ '='))
    match named.dropWhile (· ≠ '=') with
    | [] => .long name none
    | valued => .long name (some (String.ofList (valued.dropWhile (· = '='))))
  | '-' :: c :: cs => .short (c :: cs)
  | _ => .plain

/-- A setting without a value, if it may lack one. -/
def Setting.alone? (setting : Setting) : Option Argument :=
  if setting.hasDefault then some (.setting setting none) else none

/-- Reads the words of a command line. A switch ignores a value. A setting takes the word behind it
if it has no value and that word is plain. -/
def Argument.readAll? : List String → Option (List Argument)
  | [] => some []
  | word :: words =>
    match Word.of word.toList with
    | .separator => some (words.map .file)
    | .plain => (readAll? words).map (.file word :: ·)
    | .short letters =>
      if letters.all (· = 'v') then
        (readAll? words).map (List.replicate letters.length (.switch .verbose) ++ ·)
      else none
    | .long name value? =>
      match Switch.ofName? name, Setting.ofName? name, value? with
      | some s, _, _ => (readAll? words).map (.switch s :: ·)
      | none, some s, some value => (readAll? words).map (.setting s (some value) :: ·)
      | none, some s, none =>
        match words with
        | [] => s.alone?.map fun argument => [argument]
        | value :: others =>
          if Word.of value.toList = .plain then
            (readAll? others).map (.setting s (some value) :: ·)
          else s.alone?.bind fun argument => (readAll? (value :: others)).map (argument :: ·)
      | none, none, _ => none

end RoundRobin.CommandLine
