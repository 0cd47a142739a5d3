import Provision.History
import Provision.Toml.Document
import Provision.Toml.Writer

/-!
# The history as TOML

The rows of a history are written as a list of tables, `transaction`, each with the list of its
items inside. Versions and words stay the texts that the rows keep.
-/

namespace Provision.History

namespace RowItem

def ofFields (fields : Toml.Fields) : Except Toml.Error RowItem := do
  return {
    name := ← fields.need "name" Toml.asString
    arch := ← fields.need "arch" Toml.asString
    evr := ← fields.need "evr" Toml.asString
    repo := ← fields.need "repo" Toml.asString
    action := ← fields.need "action" Toml.asString
    reason := ← fields.need "reason" Toml.asString
    result := ← fields.need "result" Toml.asString
    previousEvr := ← fields.get? "previous_evr" Toml.asString
    cause := ← fields.get? "cause" Toml.asString }

def toToml (i : RowItem) : String :=
  String.join [
    "\n[[transaction.item]]\n",
    Toml.stringLine "name" i.name,
    Toml.stringLine "arch" i.arch,
    Toml.stringLine "evr" i.evr,
    Toml.stringLine "repo" i.repo,
    Toml.stringLine "action" i.action,
    Toml.stringLine "reason" i.reason,
    Toml.stringLine "result" i.result,
    Toml.optionLine "previous_evr" i.previousEvr,
    Toml.optionLine "cause" i.cause]

end RowItem

namespace Store

/-- Adds what a table says of a transaction and its items. -/
def addFields (store : Store) (fields : Toml.Fields) : Except Toml.Error Store := do
  let key ← fields.need "id" Toml.asInteger
  let row : Row := {
    startEpoch := ← fields.need "start" Toml.asInteger
    endEpoch := ← fields.need "end" Toml.asInteger
    state := ← fields.need "state" Toml.asString }
  let items ← fields.getOr "item" (Toml.asList fun name value => do
    RowItem.ofFields (← Toml.asTable name value)) []
  (store.write key row items).mapError fun _ => .misfit "transaction"

def rowText (key : Int) (row : Row) (items : List RowItem) : String :=
  String.join [
    "[[transaction]]\n",
    Toml.integerLine "id" key,
    Toml.integerLine "start" row.startEpoch,
    Toml.integerLine "end" row.endEpoch,
    Toml.stringLine "state" row.state] ++
    String.join (items.map RowItem.toToml)

def ofDocument (text : String) : Except Toml.Error Store := do
  let transactions ← (← Toml.parse text).getOr "transaction" (Toml.asList Toml.asTable) []
  transactions.foldlM addFields {}

def toDocument (store : Store) : String :=
  "\n".intercalate (store.rows.toList.map fun row => rowText row.1 row.2 (store.itemsOf row.1))

end Store

end Provision.History
