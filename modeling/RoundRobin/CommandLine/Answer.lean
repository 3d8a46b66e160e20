import RoundRobin.CommandLine.Request
import RoundRobin.Formulation.Formulate
import RoundRobin.Gzip.Member
import RoundRobin.Loader
import RoundRobin.Text.Split

/-! The answer to a request, which depends on the bytes of its file: a program, or the failure that
stopped it. -/

namespace RoundRobin.CommandLine

/-- The parts of a path between slashes that name something. -/
def pathNames (path : String) : List (List Char) :=
  (Text.split '/' path.toList).filter fun name => name ≠ [] ∧ name ≠ ['.']

/-- Whether a path names a compressed file, by what follows the last dot of the name. A dot that the
name starts with does not count. -/
def isPacked (path : String) : Bool :=
  match (pathNames path).getLast? with
  | some name => ".gz".toList.isSuffixOf name && 3 < name.length
  | none => false

namespace Request

/-- Whether to read the standard input instead of a file. -/
def fromInput (request : Request) : Bool := request.file = "-"

/-- The text that some bytes of the file hold, if they hold one. -/
def text? (request : Request) (bytes : ByteArray) : Option String :=
  if isPacked request.file ∧ ¬request.fromInput then
    (Gzip.unpack? bytes.toList).bind fun data => String.fromUTF8? ⟨data.toArray⟩
  else String.fromUTF8? bytes

/-- The text of the file, where the bytes are missing if there is no such file. -/
def text (request : Request) (bytes : Option ByteArray) : Except Failure String :=
  match bytes.bind request.text? with
  | some text => .ok text
  | none => .error .unreadable

/-- The program for the tournament in the file. -/
def program (request : Request) (bytes : Option ByteArray) : Except Failure Zimpl.Program := do
  let tournament ← Tournament.read (← request.text bytes)
  tournament.formulate request.options

/-- The notes to show on the way to the program. -/
def notes (request : Request) (bytes : Option ByteArray) : List Note :=
  match request.level, request.text bytes with
  | some level, .ok text =>
    Note.upTo level (Tournament.readNotes text ++ match Tournament.read text with
      | .ok tournament => tournament.formulateNotes request.options
      | .error _ => [])
  | _, _ => []

/-- The line that tells of a failure. -/
def failureLine (request : Request) (failure : Failure) : String :=
  "error: " ++ request.file ++ ": " ++ failure.message

end Request

end RoundRobin.CommandLine
