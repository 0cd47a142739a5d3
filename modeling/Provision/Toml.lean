/-!
# TOML values

A document is a table of values. Tables remember how they came about, since a table that a header or
an inline value has defined is closed to later definitions, while one that was only passed through
on the way to another one is not.
-/

namespace Provision.Toml

/-- How a table came about. -/
inductive Origin
  /-- Passed through by the header of a table inside it. -/
  | implied
  /-- Named by a header of its own. -/
  | header
  /-- Passed through by the key of a value inside it. -/
  | dotted
  /-- Written as one value. -/
  | inline
  deriving DecidableEq, Repr

inductive Value
  | string (s : String)
  | integer (n : Int)
  /-- A number with a fraction or an exponent, as it was written. -/
  | float (text : List Char)
  | boolean (b : Bool)
  /-- A date, a time or both, as it was written. -/
  | moment (text : List Char)
  | array (values : List Value)
  | table (origin : Origin) (fields : List (String × Value))
  /-- A list of tables that headers in double brackets wrote. -/
  | tables (elements : List (List (String × Value)))
  deriving Repr

abbrev Fields := List (String × Value)

/-- Why a text is no document, or a document not of the shape asked for. -/
inductive Error
  | malformed
  | duplicate (key : String)
  | misfit (key : String)
  | unknownKey (key : String)
  | missingKey (key : String)
  deriving DecidableEq, Repr

def Error.detail : Error → String
  | malformed => "the text is no document"
  | duplicate key => s!"the key {key} is defined twice"
  | misfit key => s!"the value of {key} is of another kind"
  | unknownKey key => s!"the key {key} is not known"
  | missingKey key => s!"the key {key} is missing"

def Error.message (e : Error) : String := "TOML parse error: " ++ e.detail

namespace Fields

def find? (fields : Fields) (key : String) : Option Value :=
  (List.find? (fun f => f.1 == key) fields).map Prod.snd

/-- The fields with the value of a key, which must be there, put in place of the old one. -/
def set (fields : Fields) (key : String) (value : Value) : Fields :=
  List.map (fun f => if f.1 == key then (key, value) else f) fields

/-- The fields with a value under a dotted key. The key may lead through tables that no header names
and into the last element of a list of tables, but its own table is one that dotted keys made. -/
def insertPair (fields : Fields) (value : Value) : List String → Except Error Fields
  | [] => .error .malformed
  | [key] =>
    match find? fields key with
    | none => .ok (fields ++ [(key, value)])
    | some _ => .error (.duplicate key)
  | key :: path =>
    match find? fields key with
    | none => do return fields ++ [(key, .table .dotted (← insertPair [] value path))]
    | some (.table .dotted inner) => do
      return set fields key (.table .dotted (← insertPair inner value path))
    | some (.table .implied inner) =>
      if path.length = 1 then .error (.duplicate key)
      else do return set fields key (.table .implied (← insertPair inner value path))
    | some (.tables elements) =>
      if path.length = 1 then .error (.duplicate key)
      else do
        let last ← insertPair (elements.getLast?.getD []) value path
        return set fields key (.tables (elements.dropLast ++ [last]))
    | some _ => .error (.duplicate key)

/-- The fields of the table at a key, if headers have only passed through it. -/
def impliedAt (fields : Fields) : List String → Fields
  | [] => []
  | [key] =>
    match find? fields key with
    | some (.table .implied inner) => inner
    | _ => []
  | key :: path =>
    match find? fields key with
    | some (.table _ inner) => impliedAt inner path
    | some (.tables elements) => impliedAt (elements.getLast?.getD []) path
    | _ => []

/-- The fields with a section, a table or an element of a list of tables, under a dotted key. A
table takes the place of one that headers have only passed through; its section began with the
fields of that one. -/
def insertSection (fields : Fields) (isElement : Bool) (body : Fields) :
    List String → Except Error Fields
  | [] => .error .malformed
  | [key] =>
    match find? fields key, isElement with
    | none, false => .ok (fields ++ [(key, .table .header body)])
    | none, true => .ok (fields ++ [(key, .tables [body])])
    | some (.table .implied _), false => .ok (set fields key (.table .header body))
    | some (.tables elements), true => .ok (set fields key (.tables (elements ++ [body])))
    | some _, _ => .error (.duplicate key)
  | key :: path =>
    match find? fields key with
    | none => do
      return fields ++ [(key, .table .implied (← insertSection [] isElement body path))]
    | some (.table .inline _) => .error (.duplicate key)
    | some (.table origin inner) => do
      return set fields key (.table origin (← insertSection inner isElement body path))
    | some (.tables elements) => do
      let last ← insertSection (elements.getLast?.getD []) isElement body path
      return set fields key (.tables (elements.dropLast ++ [last]))
    | some _ => .error (.duplicate key)

end Fields

end Provision.Toml
