import Provision.Goal.Selection
import Provision.Text.Path
import Provision.Toml.Document

/-!
# Settings

Settings are read from a TOML document in which every key may be left out and no other key may
stand. Globs and the log level are checked when the document is read, the globs first.
-/

namespace Provision

structure Settings where
  /-- Packages that are never removed. -/
  protectedPackages : List String := ["goalpost"]
  /-- Only the newest candidates will do. -/
  best : Bool := false
  /-- Installed packages may be removed to make room. -/
  allowErasing : Bool := false
  /-- Every removal takes dependencies along that nothing else needs. -/
  cleanOnRemove : Bool := false
  universePath : String := "/var/lib/goalpost/universe.toml"
  historyPath : String := "/var/lib/goalpost/history.db"
  lockPath : String := "/var/lib/goalpost/goalpost.lock"
  /-- How long to wait for the lock, in milliseconds. -/
  lockTimeout : Nat := 1500
  /-- The name of the level of the log file, as it was given. -/
  logLevel : Option String := none
  logFile : Option String := none
  /-- Globs that hide offers. -/
  excludes : List String := []
  deriving DecidableEq, Repr

namespace Settings

/-- The settings are those that hold where nothing is set, in whatever way paths are spelled. -/
def IsDefault (s : Settings) : Prop :=
  let default : Settings := {}
  Text.SamePath s.universePath default.universePath ∧
    Text.SamePath s.historyPath default.historyPath ∧
    Text.SamePath s.lockPath default.lockPath ∧
    { s with
      universePath := default.universePath, historyPath := default.historyPath
      lockPath := default.lockPath } = default

instance (s : Settings) : Decidable s.IsDefault := by
  unfold IsDefault
  infer_instance

/-- Where settings are kept. -/
def defaultPlace : String := "/etc/goalpost/goalpost.toml"

/-- Why a document holds no settings. -/
inductive Error
  | document (reason : Toml.Error)
  | exclude (reason : ExcludeError)
  | level (reason : ParseError)
  deriving DecidableEq, Repr

def Error.message : Error → String
  | document reason => reason.message
  | exclude reason => "Configuration error: invalid " ++ reason.detail
  | level reason => reason.message

def keys : List String :=
  ["protected_packages", "best", "allow_erasing", "clean_requirements_on_remove", "universe_path",
    "history_path", "lock_path", "lock_timeout_ms", "log_level", "log_file", "excludes"]

def ofFields (fields : Toml.Fields) : Except Toml.Error Settings := do
  if let some key := (fields.map Prod.fst).find? fun key => !keys.contains key then
    throw (.unknownKey key)
  let default : Settings := {}
  let strings := Toml.asList Toml.asString
  return {
    protectedPackages := ← fields.getOr "protected_packages" strings default.protectedPackages
    best := ← fields.getOr "best" Toml.asBoolean default.best
    allowErasing := ← fields.getOr "allow_erasing" Toml.asBoolean default.allowErasing
    cleanOnRemove :=
      ← fields.getOr "clean_requirements_on_remove" Toml.asBoolean default.cleanOnRemove
    universePath := ← fields.getOr "universe_path" Toml.asString default.universePath
    historyPath := ← fields.getOr "history_path" Toml.asString default.historyPath
    lockPath := ← fields.getOr "lock_path" Toml.asString default.lockPath
    lockTimeout := ← fields.getOr "lock_timeout_ms" Toml.asNatural default.lockTimeout
    logLevel := ← fields.get? "log_level" Toml.asString
    logFile := ← fields.get? "log_file" Toml.asString
    excludes := ← fields.getOr "excludes" strings default.excludes }

/-- The threshold of the log file; without a level it keeps everything. -/
def threshold (s : Settings) : Except ParseError Threshold := s.logLevel.mapM Level.parse

def parse (text : String) : Except Error Settings := do
  let fields ← (Toml.parse text).mapError .document
  let settings ← (ofFields fields).mapError .document
  if let some reason := ExcludeError.first? settings.excludes then throw (.exclude reason)
  let _ ← settings.threshold.mapError .level
  return settings

/-- The document at a place holds no settings. -/
structure LoadError where
  place : String
  reason : Error
  deriving DecidableEq, Repr

def LoadError.message (e : LoadError) : String :=
  s!"Configuration error: {e.place}: {e.reason.message}"

/-- The settings kept at a place; where nothing is kept, the default ones. -/
def load (place : String) (kept : Option String) : Traced (Except LoadError Settings) :=
  match kept with
  | none => do
    Traced.debug s!"No configuration at {place}, using defaults"
    return .ok {}
  | some text =>
    match parse text with
    | .error reason => return .error ⟨place, reason⟩
    | .ok settings => do
      Traced.debug s!"Loaded configuration from {place}"
      return .ok settings

/-- What the settings say about resolving goals. -/
def policy (s : Settings) : Goal.Policy := ⟨s.protectedPackages, s.best, s.allowErasing⟩

end Settings

end Provision
