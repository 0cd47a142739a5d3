import Provision.Json
import Provision.Transaction

/-!
# Records

A record says what became of a transaction: when it ran, how it ended and what happened to each of
its items. Items behind the one that failed were not attempted.
-/

namespace Provision.History

/-- What happened to an item. -/
inductive Result
  | applied
  | failed
  | unattempted
  deriving DecidableEq, Repr

namespace Result

def all : List Result := [applied, failed, unattempted]

def text : Result → String
  | applied => "APPLIED"
  | failed => "FAILED"
  | unattempted => "UNATTEMPTED"

def parse : String → Except UnknownWord Result := readWord "item outcome" all text

end Result

structure RecordItem where
  build : Build
  repo : String
  action : Action
  reason : Reason
  result : Result
  /-- The version before, if it was another one. -/
  previousEvr : Option Evr := none
  /-- What the installer said about a failed item. -/
  cause : Option String := none
  deriving DecidableEq, Repr

def RecordItem.package (i : RecordItem) : Package := ⟨i.build, i.repo, none⟩

def RecordItem.ofItem (i : Item) (result : Result) (cause : Option String) : RecordItem where
  build := i.package.build
  repo := i.package.repo
  action := i.action
  reason := i.reason
  result := result
  previousEvr := i.previousEvr
  cause := cause

structure Record where
  id : Nat
  startEpoch : Int
  endEpoch : Int
  state : State
  items : List RecordItem
  deriving DecidableEq, Repr

namespace Record

/-- How many items had that result. -/
def count (r : Record) (result : Result) : Nat := r.items.countP (·.result = result)

def itemJson (i : RecordItem) : Json :=
  .object <|
    [("name", .string i.build.name), ("arch", .string i.build.arch),
      ("epoch_version_release", .string i.build.evr.text), ("action", .string i.action.text),
      ("reason", .string i.reason.text), ("outcome", .string i.result.text),
      ("repo", .string i.repo)] ++
    (i.previousEvr.map fun evr => ("previous_evr", Json.string evr.text)).toList ++
    (i.cause.map fun cause => ("cause", Json.string cause)).toList

def toJson (r : Record) : Json :=
  .object
    [("id", .integer r.id), ("start_epoch", .integer r.startEpoch),
      ("end_epoch", .integer r.endEpoch), ("state", .string r.state.text),
      ("items", .list (r.items.map itemJson))]

end Record

end Provision.History
