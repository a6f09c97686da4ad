import Fexpr.CommandLine.Run

/-!
# The program

The outer layer of the command line: it reads files, the standard input and settings, and prints
what a run reports.
-/

namespace Fexpr.CommandLine

/-- Reads a file. -/
def readFile (path : String) : IO (Except ReadError ByteArray) := do
  try
    return .ok (← IO.FS.readBinFile path)
  catch e =>
    match e with
    | .noFileOrDirectory _ _ _ => return .error .notFound
    | .noSuchThing _ _ _ => return .error .notFound
    | .inappropriateType _ 21 _ => return .error .isDirectory
    | .inappropriateType _ _ _ => return .error .notDirectory
    | .invalidArgument _ _ _ => return .error .nameTooLong
    | e => return .error (.other (toString e))

/-- Reads what is left of a stream. -/
partial def readRest (stream : IO.FS.Stream) (acc : ByteArray) : IO ByteArray := do
  let chunk ← stream.read 65536
  if chunk.isEmpty then return acc else readRest stream (acc ++ chunk)

/-- The names of the settings that a run looks at. -/
def lookedAt : List String := ["TERM", "NO_COLOR"]

/-- The settings of the given names, as far as they are set. -/
def currentSettings (names : List String) : IO (List (String × String)) :=
  names.filterMapM fun name => do
    return (← IO.getEnv name).map fun value => (name, value)

/-- Reads what the options name and runs them. -/
def perform (o : Options) : IO Report := do
  let settings ← currentSettings lookedAt
  let content ←
    match o.input with
    | .argument text => pure (.ok text.toUTF8)
    | .file path => readFile path
    | .standardInput => .ok <$> readRest (← IO.getStdin) .empty
  return runOn o settings content

end Fexpr.CommandLine

/-- Runs the program on the arguments. -/
def main (arguments : List String) : IO UInt32 := do
  let report ←
    match Fexpr.CommandLine.parse arguments with
    | .error u => pure (Fexpr.CommandLine.usage u)
    | .ok o => Fexpr.CommandLine.perform o
  IO.print report.stdout
  IO.eprint report.stderr
  return UInt32.ofNat report.exitCode
