import Provision.Command.Run
import Provision.History.Document
import Provision.Log.Sink
import Std.Time.DateTime.Timestamp

/-!
# The program

Reads what the settings name, runs a command on it, and writes back what the command changed. Files
are replaced as a whole. The lock is a lock on a file; its holder's number stands in a file beside
it.
-/

namespace Provision.Program

/-! ## Files -/

/-- The text of a file, if there is one. -/
def readText (path : String) : IO (Option String) := do
  try
    return some (← IO.FS.readFile path)
  catch e =>
    match e with
    | .noFileOrDirectory _ _ _ => return none
    | e => throw e

/-- Makes the directory in which a file is to stand. -/
def makeParent (path : String) : IO Unit := do
  if let some (directory, _) := Text.cutLast '/' path.toList then
    if !directory.isEmpty then IO.FS.createDirAll (String.ofList directory)

/-- Puts a text in place of a file at one stroke. -/
def replaceText (path text : String) : IO Unit := do
  makeParent path
  let draft := path ++ ".tmp"
  IO.FS.writeFile draft text
  IO.FS.rename draft path

def readHistory (path : String) : IO (Option History.Store) := do
  match ← readText path with
  | none => return none
  | some text =>
    match History.Store.ofDocument text with
    | .ok store => return some store
    | .error e => throw (.userError s!"Failed to open history {path}: {e.message}")

def writeShared (settings : Settings) (before after : Shared) : IO Unit := do
  if let some store := after.history then
    let text := store.toDocument
    if before.history.map History.Store.toDocument ≠ some text then
      replaceText settings.historyPath text
  if let some text := after.document then
    if before.document ≠ some text then replaceText settings.universePath text

/-! ## The lock -/

/-- The number of this process, or zero where the system does not tell. -/
def processId : IO Nat := do
  let text ← readText "/proc/self/stat"
  return ((text.bind fun s => (s.splitOn " ").head?).bind String.toNat?).getD 0

/-- The file that names the holder of a lock. -/
def holderPath (path : String) : String :=
  match Text.cutLast '.' path.toList with
  | some (stem, _) => String.ofList stem ++ ".pid"
  | none => path ++ ".pid"

/-- Tries to lock a file, and again after each of the waits. -/
def tryLock (handle : IO.FS.Handle) (waits : List Nat) : IO Bool := do
  if ← handle.tryLock then return true
  for wait in waits do
    IO.sleep wait.toUInt32
    if ← handle.tryLock then return true
  return false

/-- Runs an action with the lock as this process finds it: free for it to take, or held. -/
def withLock {α : Type} (settings : Settings) (pid : Nat) (act : Lock → IO α) : IO α := do
  makeParent settings.lockPath
  let handle ← IO.FS.Handle.mk settings.lockPath .append
  let holder := holderPath settings.lockPath
  if ← tryLock handle (Lock.waitsFor settings.lockTimeout) then
    IO.FS.writeFile holder (toString pid)
    try act {}
    finally
      IO.FS.removeFile holder
      handle.unlock
  else
    let other := (← readText holder).bind fun s => s.trimAscii.toString.toNat?
    act ⟨some (other.getD 0)⟩

/-! ## Output -/

def now : IO Int := do
  return (← Std.Time.Timestamp.now).toSecondsSinceUnixEpoch.val

/-- Shows lines on the console, fewer if it is to be quiet, and adds them to the log file. -/
def log (settings : Settings) (quiet : Bool) (pid : Nat) (lines : List Line) : IO Unit := do
  let console : Threshold := some (if quiet then .warning else .info)
  for line in lines do
    if console.Admits line.level then IO.eprintln line.render
  if let (some path, .ok threshold) := (settings.logFile, settings.threshold) then
    makeParent path
    let handle ← IO.FS.Handle.mk path .append
    handle.putStr (({ threshold := threshold } : Sink).logAll (← now) pid lines).text

def say (reply : Reply) : IO Unit := do
  IO.eprint reply.err
  IO.print reply.out
  (← IO.getStdout).flush

/-! ## Commands -/

/-- Goes on with a transaction that waits, on the history as it is once the lock is held. -/
def complete (inv : Invocation) (settings : Settings) (w : Waiting) (shared : Shared) (pid : Nat) :
    IO Reply := do
  let answer ← if inv.assumeYes then pure "" else (← IO.getStdin).getLine
  let act (lock : Lock) : IO Reply := do
    let found : Shared :=
      { shared with history := ← readHistory settings.historyPath, lock := lock }
    let x := inv.complete w answer found pid (← now)
    writeShared settings found x.value.2
    log settings inv.quiet pid x.lines
    return x.value.1
  if inv.agrees answer then withLock settings pid act else act {}

def runCommand (inv : Invocation) : IO Reply := do
  let place := inv.settingsPlace.getD Settings.defaultPlace
  match (Settings.load place (← readText place)).value with
  | .error e => return Invocation.unloadable e
  | .ok settings =>
    let pid ← processId
    let found : Shared :=
      { document := ← readText settings.universePath
        history := ← readHistory settings.historyPath }
    let x := inv.prepare settings found
    writeShared settings found x.value.2
    log settings inv.quiet pid x.lines
    match x.value.1 with
    | .finished reply => return reply
    | .waiting w =>
      say w.reply
      complete inv settings w x.value.2 pid

end Provision.Program

open Provision in
/-- Runs the command that the arguments ask for. -/
def main (args : List String) : IO UInt32 := do
  match Invocation.parse args with
  | none =>
    IO.eprint Invocation.usage
    return 2
  | some inv =>
    let reply ← Program.runCommand inv
    Program.say reply
    return reply.exitCode.toUInt32
