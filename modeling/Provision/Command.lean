import Provision.Text.Cut
import Provision.Text.Numeral

/-!
# Commands

What a user asks the program to do, read from the arguments. Switches may stand anywhere, before,
behind and between words; after two dashes everything is a word.
-/

namespace Provision

inductive Command
  | install (patterns : List String) (allowDowngrade force : Bool)
  | remove (patterns : List String) (cleanDeps : Bool)
  /-- Without patterns, as for `distroSync`, everything is meant. -/
  | upgrade (patterns : List String)
  | downgrade (patterns : List String)
  | reinstall (patterns : List String)
  | distroSync (patterns : List String)
  | listHistory (limit : Nat)
  | showRecord (id : Nat) (asJson : Bool)
  | undo (id : Nat)
  deriving DecidableEq, Repr

/-- A command with the switches that all commands share. -/
structure Invocation where
  command : Command
  /-- Where the settings are kept, if not at the usual place. -/
  settingsPlace : Option String := none
  assumeYes : Bool := false
  quiet : Bool := false
  best : Bool := false
  allowErasing : Bool := false
  deriving DecidableEq, Repr

/-- Arguments sorted into words, switches and options with a value. -/
structure Arguments where
  words : List String := []
  switches : List String := []
  values : List (String × String) := []
  deriving Repr

namespace Arguments

/-- The options that come with a value. -/
def valued : List String := ["--config", "--limit"]

/-- The long form of a switch of one letter. -/
def longForm? : Char → Option String
  | 'y' => some "--assumeyes"
  | 'q' => some "--quiet"
  | _ => none

def addWord (a : Arguments) (word : String) : Arguments := { a with words := word :: a.words }

def addSwitches (a : Arguments) (switches : List String) : Arguments :=
  { a with switches := switches ++ a.switches }

def addValue (a : Arguments) (key value : String) : Arguments :=
  { a with values := (key, value) :: a.values }

/-- What a single argument is. -/
inductive Kind
  | word
  | switches (names : List String)
  | option (key value : String)
  /-- An option whose value is the next argument. -/
  | openOption (key : String)

/-- Two dashes begin a name, perhaps with a value behind an equals sign; one begins letters. -/
def kind? (arg : String) : Option Kind :=
  match arg.toList with
  | '-' :: '-' :: _ =>
    match Text.cutFirst '=' arg.toList with
    | some (key, value) => some (.option (String.ofList key) (String.ofList value))
    | none => some (if valued.contains arg then .openOption arg else .switches [arg])
  | '-' :: letter :: letters => ((letter :: letters).mapM longForm?).map .switches
  | _ => some .word

def read : List String → Option Arguments
  | [] => some {}
  | "--" :: words => some { words := words }
  | arg :: rest =>
    match kind? arg with
    | none => none
    | some .word => (read rest).map fun a => a.addWord arg
    | some (.switches names) => (read rest).map fun a => a.addSwitches names
    | some (.option key value) => (read rest).map fun a => a.addValue key value
    | some (.openOption key) =>
      match rest with
      | [] => none
      | value :: rest => (read rest).map fun a => a.addValue key value

def has (a : Arguments) (switch : String) : Bool := a.switches.contains switch

def value? (a : Arguments) (key : String) : Option String :=
  (a.values.find? fun v => v.1 == key).map Prod.snd

end Arguments

namespace Command

def number? (s : String) : Option Nat := (Text.readNumeral Text.maxWord s.toList).toOption

/-- How many records a list shows unless told otherwise. -/
def defaultLimit : Nat := 20

def ofArguments (a : Arguments) : Option Command :=
  match a.words with
  | "install" :: p :: ps => some (.install (p :: ps) (a.has "--allow-downgrade") (a.has "--force"))
  | "remove" :: p :: ps => some (.remove (p :: ps) (a.has "--clean-deps"))
  | "upgrade" :: ps => some (.upgrade ps)
  | "downgrade" :: p :: ps => some (.downgrade (p :: ps))
  | "reinstall" :: p :: ps => some (.reinstall (p :: ps))
  | "distro-sync" :: ps => some (.distroSync ps)
  | ["history", "list"] =>
    match a.value? "--limit" with
    | none => some (.listHistory defaultLimit)
    | some limit => (number? limit).map .listHistory
  | ["history", "info", id] => (number? id).map (.showRecord · (a.has "--json"))
  | ["history", "undo", id] => (number? id).map .undo
  | _ => none

/-- The switches and options that only this command knows. -/
def ownOptions : Command → List String
  | install _ _ _ => ["--allow-downgrade", "--force"]
  | remove _ _ => ["--clean-deps"]
  | listHistory _ => ["--limit"]
  | showRecord _ _ => ["--json"]
  | _ => []

end Command

namespace Invocation

def sharedOptions : List String :=
  ["--config", "--assumeyes", "--quiet", "--best", "--allowerasing"]

/-- Reads the arguments; nothing if they make no command. -/
def parse (args : List String) : Option Invocation := do
  let a ← Arguments.read args
  let command ← Command.ofArguments a
  let known := sharedOptions ++ command.ownOptions
  if (a.switches ++ a.values.map Prod.fst).all known.contains then
    return {
      command := command
      settingsPlace := a.value? "--config"
      assumeYes := a.has "--assumeyes"
      quiet := a.has "--quiet"
      best := a.has "--best"
      allowErasing := a.has "--allowerasing" }
  else none

def usage : String :=
  "Usage: goalpost [--config FILE] [-y] [-q] [--best] [--allowerasing] COMMAND\n\n" ++
    "Commands:\n" ++
    "  install PACKAGE... [--allow-downgrade] [--force]\n" ++
    "  remove PACKAGE... [--clean-deps]\n" ++
    "  upgrade [PACKAGE...]\n" ++
    "  downgrade PACKAGE...\n" ++
    "  reinstall PACKAGE...\n" ++
    "  distro-sync [PACKAGE...]\n" ++
    "  history list [--limit N]\n" ++
    "  history info ID [--json]\n" ++
    "  history undo ID\n"

end Invocation

end Provision
