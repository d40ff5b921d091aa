import FlowDesugar.CommandLine

/-!
# The program

The outer layer: the host is the machine, and what an execution shows goes to the standard error
stream.
-/

namespace FlowDesugar.Program

/-- The problem that an error of the system stands for. -/
def hostErrorOf : IO.Error → HostError
  | .noFileOrDirectory _ _ _ => .path .noSuchFile
  | .noSuchThing _ _ _ => .path .noSuchFile
  | .inappropriateType _ code _ => .path (if code = 20 then .notDirectory else .isDirectory)
  | error => .other (toString error)

/-- Whether a path leads to a file. -/
def isFileHere (path : String) : IO Bool := do
  let here ← IO.currentDir
  let metadata ← (here / path).metadata
  return metadata.type == .file

/-- The rest of a stream. -/
partial def readRest (stream : IO.FS.Stream) (read : ByteArray) : IO ByteArray := do
  let chunk ← stream.read 65536
  if chunk.isEmpty then return read else readRest stream (read ++ chunk)

/-- The machine at hand. -/
def machine : Host IO where
  readFile path := do
    try return some (← IO.FS.readBinFile path)
    catch _ => return none
  isFile path := do
    try isFileHere path
    catch _ => return false
  writeFile path text := do
    try
      IO.FS.writeFile path text
      return .ok ()
    catch error => return .error (hostErrorOf error)
  print text := do
    try
      IO.print text
      return .ok ()
    catch error => return .error (hostErrorOf error)
  readInput := do
    readRest (← IO.getStdin) .empty
  workingDirectory := do
    try return some (← IO.currentDir).toString
    catch _ => return none
  homeDirectory := IO.getEnv "HOME"
  now := IO.monoNanosNow

end FlowDesugar.Program

open FlowDesugar in
/-- Runs the program with the arguments of the command line. -/
def main (args : List String) : IO UInt32 := do
  match Options.parse args with
  | .error refusal =>
    if refusal.isAnswer then
      IO.println refusal.message
      return 0
    else
      IO.eprintln refusal.message
      return 1
  | .ok options =>
    let execution ← Execution.ofOptions Program.machine options
    IO.eprint (execution.messagesWith Timings.secondsText)
    return execution.exitCode.toUInt32
