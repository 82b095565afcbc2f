import ChipEight.Settings

/-!
# Commands

What a command line can ask for, and what can be wrong with one.
-/

namespace ChipEight.CommandLine

/-- The command to run a program: its file, the cycles per second, where the random bytes start, and
whether a key that an instruction has seen held is released by it. -/
structure RunRequest where
  rom : String
  refresh : Nat
  seed : Option UInt64
  clearKeys : Bool

/-- The settings of a machine that serves a request. -/
def RunRequest.settings (r : RunRequest) : Settings :=
  { clockHz := r.refresh, clearKeysOnRead := r.clearKeys, seed := r.seed }

/-- What a command line asks for: the version alone, the name of the program with it, how the
program is used, or to run a program. -/
inductive Command where
  | version
  | banner
  | help
  | run (request : RunRequest)

/-- What is wrong with a command line. A word is unknown where a command has to stand and unexpected
where no word has a place; an option may be repeated, without its value or with one it cannot
have. -/
inductive UsageError where
  | missingCommand
  | unknownCommand (word : String)
  | unexpected (word : String)
  | repeated (option : String)
  | missingValue (option : String)
  | invalidValue (option value : String)
  | missingRom

namespace UsageError

/-- The sentence that reports the error. -/
def message : UsageError → String
  | missingCommand => "a command is missing"
  | unknownCommand word => s!"there is no command {word}"
  | unexpected word => s!"unexpected argument {word}"
  | repeated option => s!"{option} cannot be used more than once"
  | missingValue option => s!"{option} needs a value"
  | invalidValue option value => s!"{value} is no value for {option}"
  | missingRom => "the ROM is missing"

end UsageError

end ChipEight.CommandLine
