import Quadword.CommandLine

/-!
# The program

The outer layer: it looks at files and prints, and leaves everything else to the command line.
-/

namespace Quadword.CommandLine

def readStdin : IO (List UInt8) := do
  let stdin ← IO.getStdin
  let mut bytes := ByteArray.empty
  let mut chunk ← stdin.read 65536
  while chunk.size > 0 do
    bytes := bytes ++ chunk
    chunk ← stdin.read 65536
  return bytes.toList

/-- What stands at the path of a source; `-` stands for the standard input. -/
def findSource (path : String) : IO Entry := do
  if path = "-" then
    return .file (← readStdin)
  else
    try
      let bytes ← IO.FS.readBinFile path
      return .file bytes.toList
    catch
      | .noFileOrDirectory .. => return .missing
      | _ => return .unreadable

/-- Writes a file, and says whether that was possible. -/
def writeOutput (path text : String) : IO Bool := do
  try
    IO.FS.writeFile path text
    return true
  catch _ => return false

/-- Prints and writes what comes of a command line, and returns its exit code. -/
def perform (o : Outcome) : IO UInt32 := do
  IO.print o.stdout
  IO.eprint o.stderr
  match o.written with
  | none => return o.code.toUInt32
  | some (path, text) =>
    if ← writeOutput path text then
      return o.code.toUInt32
    else
      IO.eprint (unwritableText path)
      return 1

/-- Does what the words of a command line ask for. -/
def runArguments (args : List String) : IO UInt32 := do
  let request := Request.ofArguments args
  match request with
  | .build b =>
    let source ← findSource b.source
    perform (b.outcome source true)
  | _ => perform (request.outcome (fun _ => .missing) fun _ => false)

end Quadword.CommandLine

def main (args : List String) : IO UInt32 := Quadword.CommandLine.runArguments args
