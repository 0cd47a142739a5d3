import Provision.Command
import Provision.Command.Reply
import Provision.Command.Table
import Provision.History.Undo
import Provision.Session

/-!
# Running commands

A command opens a session and either is done with a reply, or has a transaction that waits for a
yes. `prepare` goes up to that point, `complete` goes on from it, and `run` does both.
-/

namespace Provision

/-! ## Errors as failures -/

/-- The messages of an error in a document, the outermost first. -/
def Toml.Error.chain (e : Toml.Error) : List String := [e.message, e.detail]

def Universe.Error.chain : Universe.Error → List String
  | .document reason => reason.chain
  | .entry reason => [reason.message]

def OpenError.failure : OpenError → Failure
  | .unreadable place reason => ⟨s!"Failed to load universe {place}", reason.chain⟩
  | .exclude reason => ⟨reason.message, []⟩

def History.Error.chain : History.Error → List String
  | .refused reason => [History.Error.message (.refused reason), reason.message]
  | .unreadable column reason =>
    [History.Error.message (.unreadable column reason), History.columnDetail column reason, reason]
  | e => [e.message]

def StartError.chain : StartError → List String
  | .misuse reason => [reason.message, reason.detail]
  | .locked reason => [reason.message]

/-! ## Asking -/

/-- The first line of the answer says yes. -/
def isYes (answer : String) : Bool :=
  let line := answer.toList.takeWhile (· ≠ '\n')
  let word := String.ofList ((Text.trim line).map Char.toLower)
  word = "y" || word = "yes"

def prompt : String := "Is this ok [y/N]: "

/-- A transaction that waits for a yes, with what was said before. -/
structure Waiting where
  session : Session
  transaction : Transaction
  reply : Reply

inductive Stage
  | finished (reply : Reply)
  | waiting (w : Waiting)

def nothingToDo : Reply := .line "Nothing to do."

namespace Session

/-- What to say about a resolution, and the transaction to ask about. -/
def present (s : Session) (inv : Invocation) (r : Resolution) (t : Option Transaction) : Stage :=
  match r, t with
  | .solved _ advisories, some t =>
    let news : Reply := if inv.quiet then {} else { err := Problem.report advisories }
    if t.items.isEmpty then .finished (news.andThen nothingToDo)
    else
      let question := if inv.assumeYes then "" else prompt
      .waiting ⟨s, t, news.andThen { out := t.table ++ question }⟩
  | r, _ =>
    let report : Reply := { err := Problem.report r.problems }
    if r.problems.any Problem.isBlocking then
      .finished (report.andThen (Failure.reply ⟨"Failed to resolve the transaction", []⟩))
    else .finished (report.andThen nothingToDo)

def pursue (s : Session) (inv : Invocation) (g : Goal) : Traced Stage := do
  match ← s.resolve g with
  | .error _ => return .finished (Failure.reply ⟨"The search for a solution did not end", []⟩)
  | .ok (r, t, s) => return s.present inv r t

/-- Pursues the jobs with one verb, one for each pattern. -/
def pursueJobs (s : Session) (inv : Invocation) (verb : Goal.Verb) (patterns : List String)
    (flags : Goal.Flags) : Traced Stage :=
  s.pursue inv ⟨patterns.map fun p => ⟨verb, .pattern p, flags⟩, s.settings.policy⟩

/-! ## Records -/

def list (store : History.Store) (limit : Nat) : Reply :=
  match store.recent (History.signed limit) with
  | .error e => (Failure.ofChain e.chain).reply
  | .ok [] => .line "No transactions recorded."
  | .ok records => { out := History.recordTable records }

/-- The record of a transaction. -/
def recordOf (store : History.Store) (id : Nat) : Except Failure History.Record :=
  match store.get id with
  | .error e => .error ⟨s!"Failed to read transaction {id}", e.chain⟩
  | .ok none => .error ⟨s!"No transaction with id {id}", []⟩
  | .ok (some r) => .ok r

def showRecord (store : History.Store) (id : Nat) (asJson : Bool) : Reply :=
  match recordOf store id with
  | .error e => e.reply
  | .ok r => if asJson then .line r.toJson.pretty else { out := r.details }

def undo (s : Session) (inv : Invocation) (store : History.Store) (id : Nat) : Traced Stage :=
  match recordOf store id with
  | .error e => return .finished e.reply
  | .ok r => do
    match ← History.invert r s.index s.settings.policy with
    | .error e => return .finished (Failure.reply ⟨s!"Cannot undo transaction {id}", [e.message]⟩)
    | .ok g => s.pursue inv g

/-! ## Commands -/

/-- The patterns, or one that selects everything if there are none. -/
def orEverything (patterns : List String) : List String :=
  if patterns.isEmpty then ["*"] else patterns

def perform (s : Session) (inv : Invocation) (store : History.Store) : Traced Stage :=
  match inv.command with
  | .install patterns allowDowngrade force => do
    Traced.info ("Installing: " ++ ", ".intercalate patterns)
    s.pursueJobs inv .install patterns { allowDowngrade := allowDowngrade, force := force }
  | .remove patterns cleanDeps => do
    Traced.info ("Removing: " ++ ", ".intercalate patterns)
    s.pursueJobs inv .remove patterns { cleanDeps := cleanDeps || s.settings.cleanOnRemove }
  | .upgrade patterns => s.pursueJobs inv .upgrade (orEverything patterns) {}
  | .downgrade patterns => s.pursueJobs inv .downgrade patterns {}
  | .reinstall patterns => s.pursueJobs inv .reinstall patterns {}
  | .distroSync patterns => s.pursueJobs inv .distroSync (orEverything patterns) {}
  | .listHistory limit => return .finished (list store limit)
  | .showRecord id asJson => return .finished (showRecord store id asJson)
  | .undo id => s.undo inv store id

end Session

namespace Invocation

/-- The settings with what the switches of the invocation add. -/
def adjust (inv : Invocation) (settings : Settings) : Settings :=
  { settings with
    best := settings.best || inv.best
    allowErasing := settings.allowErasing || inv.allowErasing }

def prepare (inv : Invocation) (settings : Settings) (shared : Shared) :
    Traced (Stage × Shared) := do
  match ← Session.openOn (inv.adjust settings) shared with
  | .error e => return (.finished e.failure.reply, shared)
  | .ok (s, shared) => return (← s.perform inv (Session.store shared), shared)

/-- What to say about a run. -/
def conclude {σ : Type} (r : Report σ) : Reply :=
  match r.outcome.failure, r.historyError with
  | some cause, _ => Failure.reply ⟨s!"Transaction {r.record.id} failed: {cause}", []⟩
  | none, some e =>
    Failure.reply ⟨s!"Transaction {r.record.id} was applied but could not be recorded: " ++
      e.message, []⟩
  | none, none => .line "Complete!"

/-- Carries out the transaction that waits; process `pid` does so at the time `now`. -/
def carryOut (w : Waiting) (shared : Shared) (pid : Nat) (now : Int) : Traced (Reply × Shared) := do
  match ← w.session.start shared w.transaction pid now with
  | .error e => return (Failure.reply ⟨"Failed to start the transaction", e.chain⟩, shared)
  | .ok (e, shared) =>
    let (report, s, shared) ← w.session.run shared e Update.ignore now
    let shared ← s.save shared
    return (conclude report, shared)

/-- The user agrees, beforehand or by the answer. -/
def agrees (inv : Invocation) (answer : String) : Bool := inv.assumeYes || isYes answer

/-- Goes on with a transaction that waits, unless the answer is no. -/
def complete (inv : Invocation) (w : Waiting) (answer : String) (shared : Shared) (pid : Nat)
    (now : Int) : Traced (Reply × Shared) :=
  if inv.agrees answer then carryOut w shared pid now
  else return (.line "Operation aborted.", shared)

def run (inv : Invocation) (settings : Settings) (shared : Shared) (answer : String) (pid : Nat)
    (now : Int) : Traced (Reply × Shared) := do
  match ← inv.prepare settings shared with
  | (.finished reply, shared) => return (reply, shared)
  | (.waiting w, shared) => do
    let (reply, shared) ← inv.complete w answer shared pid now
    return (w.reply.andThen reply, shared)

/-- The reply when the settings cannot be loaded. -/
def unloadable (e : Settings.LoadError) : Reply :=
  Failure.reply ⟨"Failed to load configuration", [e.message]⟩

end Invocation

end Provision
