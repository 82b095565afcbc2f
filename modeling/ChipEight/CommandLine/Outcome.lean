import ChipEight.CommandLine.Arguments
import ChipEight.Frontend.Terminal
import ChipEight.Session.Turn

/-!
# Outcomes

What commands come to: a text on the standard output, reports, and an exit code. Running a program
means to read its file, to load it into a machine and to drive a session on the terminal until it is
cancelled or a fault halts it. `simulate` does so under a clock that moves only while the session
rests.
-/

namespace ChipEight.CommandLine

/-- Why a file could not be read. -/
inductive ReadError where
  | notFound
  | isDirectory
  | notADirectory
  | permissionDenied
  | other (text : String)

/-- The words of the operating system for the reason. -/
def ReadError.message : ReadError → String
  | notFound => "No such file or directory (os error 2)"
  | isDirectory => "Is a directory (os error 21)"
  | notADirectory => "Not a directory (os error 20)"
  | permissionDenied => "Permission denied (os error 13)"
  | other text => text

/-- What a command line comes to: an exit code, the text on the standard output, and the reports. -/
structure Outcome where
  code : UInt8
  output : String := ""
  log : List (Level × String) := []

/-- The version. -/
def version : String := "0.1.0"

/-- The answer to the version command. -/
def versionText : String := s!"v{version}\n"

/-- The name of the program and its version. -/
def bannerText : String := s!"chippy {version}\n"

/-- How the program is used. -/
def helpText : String :=
  "Commands:\n" ++
  "  version\n" ++
  "  run ROM [--refresh HZ] [--seed NUMBER] [--clear-keys]\n"

/-- Loads a program that has been read from a file, or has not. -/
def load (rom : String) (content : Except ReadError (List UInt8)) (settings : Settings)
    (source : RandomSource) : Except String Workbench :=
  match content with
  | .error e => .error s!"unable to read {rom}: {e.message}"
  | .ok bytes =>
    match Workbench.withRom bytes settings source .info with
    | .error fault => .error s!"unable to load {rom}: {fault.message}"
    | .ok b => .ok b

/-- Reports that a program has been loaded. -/
def loadedLine (rom : String) (content : Except ReadError (List UInt8)) : Level × String :=
  let size := (content.map List.length).toOption.getD 0
  (.info, s!"loaded {rom} ({size} bytes)")

/-- Reports that a session came to its end. -/
def stoppedLine : Level × String := (.info, "stopped")

/-- Reports what a command failed with. -/
def failedLine (text : String) : Level × String := (.error, text)

/-- The world of a session on the terminal. -/
def world (b : Workbench) : World Sink :=
  { session := .start b.machine, device := {}, journal := b.journal }

/-- Runs a program for at most `turns` turns, under a clock that moves only while the session rests.
Nothing is answered if it is still running then. -/
def simulate (request : RunRequest) (content : Except ReadError (List UInt8))
    (source : RandomSource) (turns : Nat) : Option Outcome :=
  match load request.rom content request.settings source with
  | .error text => some { code := 1, log := [failedLine text] }
  | .ok b =>
    let loaded := loadedLine request.rom content
    match (Turn.untilCancelled Terminal.frontend turns).run (world b) with
    | .ok true w =>
      some { code := 0, output := w.device.text, log := loaded :: w.journal.lines ++ [stoppedLine] }
    | .ok false _ => none
    | .error fault w =>
      some {
        code := 1
        output := w.device.text
        log := loaded :: w.journal.lines ++ [failedLine fault.message] }

end ChipEight.CommandLine
