import RouteCompiler.CommandLine.Program
import Std.Time.DateTime.Timestamp

/-!
# The executable

The commands of the program on the files, the clock and the environment of a
machine.
-/

namespace RouteCompiler

/-! ## Files -/

/-- The fault behind an error of the operating system. -/
def FileFault.ofError : IO.Error → FileFault
  | .noFileOrDirectory .. => .notFound
  | .resourceBusy .. => .busy
  | .alreadyExists .. => .alreadyExists
  | .inappropriateType _ code _ => if code = 21 then .isDirectory else .notDirectory
  | .unsatisfiedConstraints .. => .notEmpty
  | .invalidArgument .. => .invalidArgument
  | e => .other (toString e)

/-- The outcome of an action on files. -/
def attemptIO {α : Type} (action : IO α) : IO (Except FileFault α) := do
  match ← action.toBaseIO with
  | .ok a => return .ok a
  | .error e => return .error (.ofError e)

instance : Files IO where
  readText path := attemptIO (IO.FS.readFile path)
  writeText path text := attemptIO (IO.FS.writeFile path text)
  listNames path := attemptIO do
    let entries ← ((← IO.currentDir) / path).readDir
    return entries.toList.map fun entry => entry.fileName
  pathExists path := do
    ((← IO.currentDir) / path).pathExists
  isDirectory path := do
    ((← IO.currentDir) / path).isDir
  makeDirectories path := attemptIO (IO.FS.createDirAll path)
  removeTree path := attemptIO (IO.FS.removeDirAll path)
  rename path newPath := attemptIO (IO.FS.rename path newPath)

/-! ## Clock and identifiers -/

/-- The number of nanoseconds since 1970 began. -/
def readClock : IO Nat := do
  return (← Std.Time.Timestamp.now).toNanosecondsSinceUnixEpoch.val.toNat

/-- A reading of the clock as a moment. -/
def readInstant : IO Instant := do
  let nanoseconds ← readClock
  return (Instant.ofEpoch? (nanoseconds / 1000000000) (nanoseconds % 1000000000)).getD .epoch

/-- A number in hexadecimal digits, as many as are asked for. -/
def hexText (width n : Nat) : String :=
  let digits := Nat.toDigits 16 (n % Nat.pow 16 width)
  String.ofList (List.replicate (width - digits.length) '0' ++ digits)

/-- An identifier that begins with the milliseconds of the clock; the rest is
random. -/
def drawId : IO BuildId := do
  let milliseconds := (← readClock) / 1000000
  let bytes ← IO.getRandomBytes 10
  let random := bytes.toList.foldl (fun n b => n * 256 + b.toNat) 0
  return Text.joinWith "-" [
    hexText 8 (milliseconds / 0x10000), hexText 4 milliseconds,
    hexText 4 (0x7000 + random % 0x1000), hexText 4 (0x8000 + random / 0x1000 % 0x4000),
    hexText 12 (random / 0x4000000)]

/-- The environment as far as the program looks at it. -/
def readEnvironment : IO (String → Option String) := do
  let names := ["HOME", CommandLine.deployRootVariable, CommandLine.poolSizeVariable]
  let values ← names.filterMapM fun name => do
    return (← IO.getEnv name).map fun value => (name, value)
  return fun name => values.lookup name

/-- Carry out what a command line asks for, on this machine. -/
def runHere (args : List String) : IO UInt32 := do
  let environment ← readEnvironment
  let host : CommandLine.Host IO := {
    now := readInstant
    freshId := drawId
    home := (environment "HOME").getD "" }
  let report ← CommandLine.run host environment args
  IO.print report.output
  IO.eprint report.errors
  return report.code

end RouteCompiler

/-- Carry out what the command line asks for. -/
def main (args : List String) : IO UInt32 :=
  RouteCompiler.runHere args
