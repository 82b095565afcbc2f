import ChipEight.CommandLine.Basic
import ChipEight.CommandLine.Numeral

/-!
# Arguments

How the words of a command line are read:

    version
    run ROM [--refresh HZ] [--seed NUMBER] [--clear-keys]

Options stand in any order, each at most once; a value is the next word or follows a `=`. Behind the
word `--` nothing is an option any more. Words are read from the left, and the first that is wrong
decides.
-/

namespace ChipEight.CommandLine

/-! ### Words -/

/-- An argument, as far as its spelling tells: a word that is no option, the end of the options, a
long option that perhaps has a value, or short options written together, of which the first
decides. -/
inductive Argument where
  | plain (word : String)
  | endOfOptions
  | long (name : String) (value : Option String)
  | short (first : Char)

/-- Reads the spelling of a word. A single `-` is a plain word. -/
def Argument.ofWord (word : String) : Argument :=
  match word.toList with
  | ['-', '-'] => .endOfOptions
  | '-' :: '-' :: cs =>
    let name := String.ofList (cs.takeWhile (· ≠ '='))
    match cs.dropWhile (· ≠ '=') with
    | [] => .long name none
    | _ :: value => .long name (some (String.ofList value))
  | '-' :: c :: _ => .short c
  | _ => .plain word

/-! ### The run command -/

/-- What has been read of a run command: the file, and the options that stand there. -/
structure RunArguments where
  rom : Option String := none
  refresh : Option Nat := none
  seed : Option UInt64 := none
  clearKeys : Bool := false

namespace RunArguments

/-- Takes a word as the file, which there is one of and which has a name. -/
def addRom (a : RunArguments) (word : String) : Except UsageError RunArguments :=
  if a.rom.isSome then .error (.unexpected word)
  else if word.isEmpty then .error .missingRom
  else .ok { a with rom := some word }

/-- Takes the value of `--refresh`: a number that a sign may precede, from 0 to the largest of 32
bits. -/
def addRefresh (a : RunArguments) (value : String) : Except UsageError RunArguments :=
  if a.refresh.isSome then .error (.repeated "--refresh")
  else match Numeral.signed? value with
    | some hz =>
      if 0 ≤ hz ∧ hz < UInt32.size then .ok { a with refresh := some hz.toNat }
      else .error (.invalidValue "--refresh" value)
    | none => .error (.invalidValue "--refresh" value)

/-- Takes the value of `--seed`: a number without a minus sign, up to the largest of 64 bits. -/
def addSeed (a : RunArguments) (value : String) : Except UsageError RunArguments :=
  if a.seed.isSome then .error (.repeated "--seed")
  else match Numeral.unsigned? value with
    | some n =>
      if n < UInt64.size then .ok { a with seed := some (UInt64.ofNat n) }
      else .error (.invalidValue "--seed" value)
    | none => .error (.invalidValue "--seed" value)

/-- Takes `--clear-keys`, which has no value. -/
def addClearKeys (a : RunArguments) (value : Option String) : Except UsageError RunArguments :=
  match value with
  | some value => .error (.invalidValue "--clear-keys" value)
  | none =>
    if a.clearKeys then .error (.repeated "--clear-keys") else .ok { a with clearKeys := true }

/-- What the arguments ask for: 60 instructions a second unless they say otherwise. -/
def request (a : RunArguments) : Except UsageError RunRequest :=
  match a.rom with
  | some rom => .ok { rom, refresh := a.refresh.getD 60, seed := a.seed, clearKeys := a.clearKeys }
  | none => .error .missingRom

/-- How the value of an option is taken. -/
def setter? (name : String) : Option (RunArguments → String → Except UsageError RunArguments) :=
  match name with
  | "refresh" => some addRefresh
  | "seed" => some addSeed
  | _ => none

/-- Reads the words behind `--`. -/
def readPlain (a : RunArguments) (words : List String) : Except UsageError RunArguments :=
  words.foldlM addRom a

/-- Reads the words of a run command. -/
def read (a : RunArguments) : List String → Except UsageError Command
  | [] => do return .run (← a.request)
  | word :: rest =>
    match Argument.ofWord word with
    | .plain rom => do (← a.addRom rom).read rest
    | .endOfOptions => do return .run (← (← a.readPlain rest).request)
    | .short 'h' => .ok .help
    | .short _ => .error (.unexpected word)
    | .long "help" none => .ok .help
    | .long "clear-keys" value => do (← a.addClearKeys value).read rest
    | .long name value =>
      match setter? name, value, rest with
      | none, _, _ => .error (.unexpected word)
      | some set, some value, rest => do (← set a value).read rest
      | some _, none, [] => .error (.missingValue word)
      | some set, none, next :: rest =>
        match Argument.ofWord next with
        | .plain value => do (← set a value).read rest
        | _ => .error (.missingValue word)

end RunArguments

/-! ### Commands -/

/-- Reads the words behind a command that takes none. -/
def readNothing (command : Command) : List String → Except UsageError Command
  | [] => .ok command
  | word :: rest =>
    match Argument.ofWord word, rest with
    | .endOfOptions, [] => .ok command
    | .short 'h', _ => .ok .help
    | .long "help" none, _ => .ok .help
    | _, _ => .error (.unexpected word)

/-- Reads a command line. -/
def Command.parse : List String → Except UsageError Command
  | [] => .error .missingCommand
  | "version" :: rest => readNothing .version rest
  | "run" :: rest => RunArguments.read {} rest
  | ["help"] | ["help", "run"] | ["help", "version"] | ["help", "help"] => .ok .help
  | word :: _ =>
    match Argument.ofWord word with
    | .short 'h' => .ok .help
    | .long "help" none => .ok .help
    | .short 'V' => .ok .banner
    | .long "version" none => .ok .banner
    | .plain word => .error (.unknownCommand word)
    | .endOfOptions => .error .missingCommand
    | _ => .error (.unexpected word)

end ChipEight.CommandLine
