import Provision.Toml.Document
import Provision.Toml.Writer
import Provision.Universe

/-!
# Universes as TOML

A universe is written as two lists of tables, `installed` and `available`, with one table for each
entry. Fields that are absent or empty are left out; fields that are not known are skipped when a
universe is read. An entry may also be read from an array of the values of its fields in their
order.
-/

namespace Provision

namespace UniverseEntry

/-- The fields of an entry in the order in which they are written. -/
def keys : List String :=
  ["nevra", "repo", "checksum", "reason", "requires", "recommends", "provides", "conflicts",
    "obsoletes", "install_before", "remove_after"]

def requirements (fields : Toml.Fields) (key : String) : Except Toml.Error (List Requirement) :=
  fields.getOr key (Toml.asList (Toml.asParsed Requirement.parse)) []

def ofFields (fields : Toml.Fields) : Except Toml.Error UniverseEntry := do
  return {
    nevra := ← fields.need "nevra" Toml.asString
    repo := ← fields.get? "repo" Toml.asString
    checksum := ← fields.get? "checksum" Toml.asString
    reason := ← fields.get? "reason" (Toml.asWord Reason.parse)
    requires := ← requirements fields "requires"
    recommends := ← requirements fields "recommends"
    provides := ← fields.getOr "provides" (Toml.asList (Toml.asParsed Provide.parse)) []
    conflicts := ← requirements fields "conflicts"
    obsoletes := ← requirements fields "obsoletes"
    installBefore := ← fields.getOr "install_before" (Toml.asList Toml.asString) []
    removeAfter := ← fields.getOr "remove_after" (Toml.asList Toml.asString) [] }

/-- The lines of an entry. -/
def toToml (e : UniverseEntry) : String :=
  String.join [
    Toml.stringLine "nevra" e.nevra,
    Toml.optionLine "repo" e.repo,
    Toml.optionLine "checksum" e.checksum,
    Toml.optionLine "reason" (e.reason.map Reason.text),
    Toml.listLine "requires" (e.requires.map Requirement.text),
    Toml.listLine "recommends" (e.recommends.map Requirement.text),
    Toml.listLine "provides" (e.provides.map Provide.text),
    Toml.listLine "conflicts" (e.conflicts.map Requirement.text),
    Toml.listLine "obsoletes" (e.obsoletes.map Requirement.text),
    Toml.listLine "install_before" e.installBefore,
    Toml.listLine "remove_after" e.removeAfter]

end UniverseEntry

namespace Universe

def ofToml (text : String) : Except Toml.Error Universe := do
  let fields ← Toml.parse text
  let entries := Toml.asList fun key value => do
    UniverseEntry.ofFields (← Toml.asRecord UniverseEntry.keys key value)
  return ⟨← fields.getOr "installed" entries [], ← fields.getOr "available" entries []⟩

/-- The table of an entry under the name of its list. -/
def tableText (key : String) (e : UniverseEntry) : String := "[[" ++ key ++ "]]\n" ++ e.toToml

/-- Lists without entries come first, then the tables, with blank lines between all parts. -/
def toToml (u : Universe) : String :=
  let empty := String.join <|
    ([("installed", u.installed), ("available", u.available)].filter fun l => l.2.isEmpty).map
      fun l => l.1 ++ " = []\n"
  let tables := u.installed.map (tableText "installed") ++ u.available.map (tableText "available")
  "\n".intercalate ((if empty.isEmpty then [] else [empty]) ++ tables)

/-- Why a document holds no universe that makes an index. -/
inductive Error
  | document (reason : Toml.Error)
  | entry (reason : ParseError)
  deriving DecidableEq, Repr

def Error.message : Error → String
  | document reason => reason.message
  | entry reason => reason.message

end Universe

namespace Index

/-- The index that a document describes. -/
def ofDocument (text : String) : Except Universe.Error Index := do
  let u ← (Universe.ofToml text).mapError .document
  (Index.ofUniverse u).mapError .entry

def toDocument (ix : Index) : String := ix.toUniverse.toToml

end Index

end Provision
