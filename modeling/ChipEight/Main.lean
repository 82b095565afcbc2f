import ChipEight.ByteStream.Seeded
import ChipEight.CommandLine.Arguments
import ChipEight.CommandLine.Outcome

/-!
# The executable

Reads the command line and the file, runs the session in real time and prints what it writes. Every
decision is taken by the modules that this one calls.
-/

namespace ChipEight.CommandLine

/-- A reason why a file could not be read. -/
def readErrorOf : IO.Error → ReadError
  | .noFileOrDirectory .. => .notFound
  | .inappropriateType _ code _ => if code = 21 then .isDirectory else .notADirectory
  | .permissionDenied .. => .permissionDenied
  | e => .other (toString e)

/-- The content of a file. -/
def readFile (name : String) : IO (Except ReadError (List UInt8)) := do
  match ← (IO.FS.readBinFile name).toBaseIO with
  | .ok bytes => return .ok bytes.toList
  | .error e => return .error (readErrorOf e)

/-- Prints reports on the standard error. -/
def printLines (lines : List (Level × String)) : IO Unit := do
  let stderr ← IO.getStderr
  for (level, text) in lines do
    stderr.putStrLn s!"[{level.name}] {text}"

/-- Prints what the session has written and reported, and empties both. -/
def drain (w : World Sink) : IO (World Sink) := do
  let stdout ← IO.getStdout
  printLines w.journal.lines
  stdout.putStr w.device.text
  stdout.flush
  return { w with device := {}, journal := { w.journal with events := #[] } }

/-- Turns of a session in real time, until it is cancelled or ends with a fault. -/
partial def drive (begun : Nat) (w : World Sink) : IO UInt32 := do
  if w.session.cancelled then
    printLines [(Event.stopping.level, Event.stopping.text), stoppedLine]
    return 0
  let now := (← IO.monoNanosNow) - begun
  let w := { w with session := { w.session with now } }
  let (w, fault) := match (Turn.once Terminal.frontend).run w with
    | .ok _ w => (w, none)
    | .error fault w => (w, some fault)
  let drained ← (drain w).toBaseIO
  match fault, drained with
  | none, .ok w =>
    IO.sleep (UInt32.ofNat ((w.session.pacing.idle + 999999) / 1000000))
    drive begun w
  | none, .error e =>
    printLines [failedLine (Fault.frontend (toString e)).message]
    return 1
  | some fault, _ =>
    printLines [failedLine fault.message]
    return 1

/-- A cipher key that nobody chose. -/
def entropy : IO ChaCha.CipherKey := do
  let bytes ← IO.getRandomBytes 32
  let word (k : Nat) : UInt32 :=
    [3, 2, 1, 0].foldl (fun word j => word * 256 + bytes[4 * k + j]!.toUInt32) 0
  return Vector.ofFn fun k => word k

/-- Runs a program in real time. -/
def runRom (request : RunRequest) : IO UInt32 := do
  let content ← readFile request.rom
  match load request.rom content request.settings (.cipher (← entropy)) with
  | .error text =>
    printLines [failedLine text]
    return 1
  | .ok b =>
    printLines [loadedLine request.rom content]
    let begun ← IO.monoNanosNow
    match Turn.announce.run (world b) with
    | .ok _ w => drive begun (← drain w)
    | .error fault _ =>
      printLines [failedLine fault.message]
      return 1

end ChipEight.CommandLine

open ChipEight.CommandLine in
/-- The exit code is 2 for a wrong command line, 1 for a failure and else 0. -/
def main (args : List String) : IO UInt32 := do
  match Command.parse args with
  | .error e =>
    IO.eprint s!"error: {e.message}\n\n{helpText}"
    return 2
  | .ok .version => IO.print versionText; return 0
  | .ok .banner => IO.print bannerText; return 0
  | .ok .help => IO.print helpText; return 0
  | .ok (.run request) => runRom request
