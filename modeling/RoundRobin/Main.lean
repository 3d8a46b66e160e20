import RoundRobin.CommandLine.Answer
import RoundRobin.Zimpl.Printer

/-! The command line program: reads a tournament and prints the program that schedules it. -/

namespace RoundRobin.CommandLine

/-- Reads a stream to its end. -/
partial def readToEnd (stream : IO.FS.Stream) (bytes : ByteArray) : IO ByteArray := do
  let more ← stream.read 65536
  if more.isEmpty then return bytes else readToEnd stream (bytes ++ more)

/-- The bytes that a request asks for, if they can be read. -/
def readBytes (request : Request) : IO (Option ByteArray) := do
  try
    if request.fromInput then return some (← readToEnd (← IO.getStdin) .empty)
    else return some (← IO.FS.readBinFile request.file)
  catch _ => return none

/-- Answers the words of a command line; gives the exit code. -/
def answer (words : List String) : IO UInt32 := do
  match Request.read? words with
  | none =>
    IO.eprintln "error: expected one FILE, or - for the standard input, and options"
    return 1
  | some request =>
    let bytes ← readBytes request
    for note in request.notes bytes do IO.eprintln note.text
    match request.program bytes with
    | .ok program =>
      IO.print program.text
      return 0
    | .error failure =>
      IO.eprintln (request.failureLine failure)
      return 1

end RoundRobin.CommandLine

def main (words : List String) : IO UInt32 := RoundRobin.CommandLine.answer words
