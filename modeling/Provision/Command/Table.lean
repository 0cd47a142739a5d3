import Provision.Calendar
import Provision.History.Record
import Provision.Text.Column

/-!
# Tables

What users see of transactions before they are run, and of records afterwards.
-/

namespace Provision

/-! ## Transactions -/

/-- The number of bytes of a text, by which two columns are made wide enough. -/
def byteLength (s : String) : Nat := s.utf8ByteSize

structure Widths where
  name : Nat
  version : Nat

namespace Widths

/-- Every cell and the heading fit. -/
def fit (heading : String) (cells : List String) : Nat :=
  (cells.map byteLength).foldl max (byteLength heading)

def of (items : List Item) : Widths where
  name := fit "Package" (items.map fun i => i.package.name)
  version := fit "Version" (items.map fun i => i.package.evr.text)

def row (w : Widths) (name arch version repo : String) : String :=
  " " ++ Text.padRight w.name name ++ "  " ++ Text.padRight 8 arch ++ "  " ++
    Text.padRight w.version version ++ "  " ++ repo ++ "\n"

def item (w : Widths) (i : Item) : String :=
  w.row i.package.name i.package.arch i.package.evr.text i.package.repo ++
    (match i.replaces with
    | none => ""
    | some old => "     replacing " ++ old.nevra ++ "\n")

/-- The items with one action under its label; nothing if there are none. -/
def group (w : Widths) (items : List Item) (action : Action) : String :=
  match items.filter fun i => i.action = action with
  | [] => ""
  | items => action.label ++ ":\n" ++ String.join (items.map w.item)

end Widths

namespace Transaction

/-- The items by action, in the order in which they will run. -/
def table (t : Transaction) : String :=
  let w := Widths.of t.items
  w.row "Package" "Arch" "Version" "Repository" ++
    String.join (Action.all.map (w.group t.items)) ++
    s!"\nTransaction Summary: {t.items.length} packages\n"

end Transaction

/-! ## Records -/

namespace History

def listRow (id date state actions altered : String) : String :=
  " | ".intercalate
    [Text.padLeft 6 id, Text.padRight 16 date, Text.padRight 10 state, Text.padRight 30 actions,
      altered] ++ "\n"

namespace Record

/-- The actions of the record, each once. -/
def actionSummary (r : Record) : String :=
  ", ".intercalate
    ((Action.all.filter fun a => r.items.any fun i => i.action = a).map Action.text)

def row (r : Record) : String :=
  listRow (toString r.id) (Calendar.minuteText r.startEpoch) r.state.text r.actionSummary
    (toString r.items.length)

end Record

/-- One row for each record under a heading. -/
def recordTable (records : List Record) : String :=
  listRow "ID" "Date" "State" "Actions" "Altered" ++ String.join (records.map Record.row)

/-- How a result that is not plain success is marked. -/
def Result.mark : Result → String
  | .applied => ""
  | .failed => " [FAILED]"
  | .unattempted => " [not attempted]"

def RecordItem.line (i : RecordItem) : String :=
  "    " ++ Text.padRight 12 i.action.label ++ " " ++ i.build.nevra ++ " @" ++ i.repo ++
    (match i.previousEvr with
    | none => ""
    | some evr => " (from " ++ evr.text ++ ")") ++
    i.result.mark ++ "\n" ++
    (match i.cause with
    | none => ""
    | some cause => "                 " ++ cause ++ "\n")

/-- Everything about a record. -/
def Record.details (r : Record) : String :=
  s!"Transaction ID : {r.id}\n" ++
    s!"Begin time     : {Calendar.minuteText r.startEpoch}\n" ++
    s!"End time       : {Calendar.minuteText r.endEpoch}\n" ++
    s!"State          : {r.state.text}\n" ++
    "Packages altered:\n" ++ String.join (r.items.map RecordItem.line)

end History

end Provision
