import Provision.Toml.Lexical

/-!
# TOML documents

A document is a list of sections: the pairs before the first header, then those after each header. A
section's pairs make a table, and the sections are put into one table in turn.
-/

namespace Provision.Toml

mutual

/-- A value with `depth` arrays and inline tables around it; `bound` exceeds the number of values
and separators that the text can hold. -/
def readValue (depth : Nat) : Nat → List Char → Option (Value × List Char)
  | 0, _ => none
  | bound + 1, s =>
    match s with
    | '"' :: _ => (readString s).map fun p => (.string (String.ofList p.1), p.2)
    | '\'' :: _ => (readString s).map fun p => (.string (String.ofList p.1), p.2)
    | '[' :: rest =>
      if depth + 1 < depthLimit then do
        let (values, rest) ← readValues (depth + 1) bound rest
        return (.array values, rest)
      else none
    | '\x7b' :: rest =>
      if depth + 1 < depthLimit then
        match skipBlanks rest with
        | '\x7d' :: rest => some (.table .inline [], rest)
        | rest => do
          let (fields, rest) ← readPairs (depth + 1) bound [] rest
          return (.table .inline fields, rest)
      else none
    | s => readScalar s

/-- The values of an array up to its closing bracket. -/
def readValues (depth : Nat) : Nat → List Char → Option (List Value × List Char)
  | 0, _ => none
  | bound + 1, s =>
    match skipSpace s.length s with
    | ']' :: rest => some ([], rest)
    | s => do
      let (value, rest) ← readValue depth bound s
      match skipSpace rest.length rest with
      | ',' :: rest => do
        let (values, rest) ← readValues depth bound rest
        return (value :: values, rest)
      | ']' :: rest => return ([value], rest)
      | _ => none

/-- The pairs of an inline table up to its closing brace, put behind those read before. -/
def readPairs (depth : Nat) : Nat → Fields → List Char → Option (Fields × List Char)
  | 0, _, _ => none
  | bound + 1, fields, s => do
    let (path, value, rest) ← readPair depth bound s
    let fields ← (Fields.insertPair fields value path).toOption
    match skipBlanks rest with
    | ',' :: rest => readPairs depth bound fields rest
    | '\x7d' :: rest => return (fields, rest)
    | _ => none

/-- A key, an equals sign and a value. -/
def readPair (depth : Nat) : Nat → List Char → Option (List String × Value × List Char)
  | 0, _ => none
  | bound + 1, s => do
    let (path, rest) ← readKey s
    match rest with
    | '=' :: rest => do
      let (value, rest) ← readValue depth bound (skipBlanks rest)
      return (path, value, rest)
    | _ => none

end

/-- A line that says something. -/
inductive Statement
  | pair (path : List String) (value : Value)
  | header (isElement : Bool) (path : List String)

/-- The key of a header and its closing brackets. -/
def readHeader (isElement : Bool) (s : List Char) : Option (Statement × List Char) := do
  let (path, rest) ← readKey s
  match rest, isElement with
  | ']' :: ']' :: rest, true => return (.header true path, rest)
  | ']' :: rest, false => return (.header false path, rest)
  | _, _ => none

def readStatement (s : List Char) : Option (Statement × List Char) :=
  match s with
  | '[' :: '[' :: rest => readHeader true rest
  | '[' :: rest => readHeader false rest
  | s => (readPair 0 (2 * s.length + 2) s).map fun p => (.pair p.1 p.2.1, p.2.2)

/-- All statements; every round reads at least one character. -/
def readStatements : Nat → List Char → Option (List Statement)
  | 0, _ => none
  | bound + 1, s =>
    match skipSpace s.length s with
    | [] => some []
    | s => do
      let (statement, rest) ← readStatement s
      let rest ← readLineEnd rest
      return statement :: (← readStatements bound rest)

/-- A header, absent at the beginning, and the fields of its table so far. -/
structure Section where
  header : Option (Bool × List String)
  fields : Fields

/-- The section that a header begins, with what earlier headers put into a table that they passed
through. -/
def Section.begin (document : Fields) (isElement : Bool) (path : List String) : Section :=
  ⟨some (isElement, path), if isElement then [] else document.impliedAt path⟩

/-- Puts a section where its header says; the pairs before the first header make the document that
the other sections are put into. -/
def Section.placeIn (s : Section) (document : Fields) : Except Error Fields :=
  match s.header with
  | none => .ok s.fields
  | some (isElement, path) => document.insertSection isElement s.fields path

/-- The document that further statements make, `current` being the section begun. -/
def build (document : Fields) (current : Section) : List Statement → Except Error Fields
  | [] => current.placeIn document
  | .pair path value :: rest => do
    build document { current with fields := ← current.fields.insertPair value path } rest
  | .header isElement path :: rest => do
    let document ← current.placeIn document
    build document (.begin document isElement path) rest

/-- A mark of the encoding may stand in front of a document. -/
def dropMark : List Char → List Char
  | '\uFEFF' :: rest => rest
  | s => s

def parse (text : String) : Except Error Fields :=
  let s := dropMark text.toList
  match readStatements (s.length + 1) s with
  | none => .error .malformed
  | some statements => build [] ⟨none, []⟩ statements

/-! ## Reading fields -/

def asString (key : String) : Value → Except Error String
  | .string s => .ok s
  | _ => .error (.misfit key)

/-- A string that a reader makes sense of. -/
def asParsed {ε α : Type} (parse : String → Except ε α) (key : String) (value : Value) :
    Except Error α := do
  match parse (← asString key value) with
  | .ok a => return a
  | .error _ => throw (.misfit key)

def asBoolean (key : String) : Value → Except Error Bool
  | .boolean b => .ok b
  | _ => .error (.misfit key)

def asInteger (key : String) : Value → Except Error Int
  | .integer n => .ok n
  | _ => .error (.misfit key)

/-- A number that is not negative. -/
def asNatural (key : String) : Value → Except Error Nat
  | .integer (.ofNat n) => .ok n
  | _ => .error (.misfit key)

def asList {α : Type} (item : String → Value → Except Error α) (key : String) :
    Value → Except Error (List α)
  | .array values => values.mapM (item key)
  | .tables elements => elements.mapM fun fields => item key (.table .header fields)
  | _ => .error (.misfit key)

def asTable (key : String) : Value → Except Error Fields
  | .table _ fields => .ok fields
  | _ => .error (.misfit key)

/-- The fields of a table, or of an array that lists the values of `names` from the first on. -/
def asRecord (names : List String) (key : String) : Value → Except Error Fields
  | .array values => .ok (names.zip values)
  | value => asTable key value

/-- A word, written as a string or as the key of a table whose only value is empty. -/
def asWord {ε α : Type} (parse : String → Except ε α) (key : String) (value : Value) :
    Except Error α :=
  match value with
  | .table _ [(word, .array [])] | .table _ [(word, .table _ [])] =>
    (parse word).mapError fun _ => .misfit key
  | value => asParsed parse key value

/-- The value of a key, if it is there. -/
def Fields.get? {α : Type} (fields : Fields) (key : String)
    (read : String → Value → Except Error α) : Except Error (Option α) :=
  (fields.find? key).mapM (read key)

/-- The value of a key that may be left out. -/
def Fields.getOr {α : Type} (fields : Fields) (key : String)
    (read : String → Value → Except Error α) (default : α) : Except Error α := do
  return (← fields.get? key read).getD default

/-- The value of a key that must be there. -/
def Fields.need {α : Type} (fields : Fields) (key : String)
    (read : String → Value → Except Error α) : Except Error α := do
  match ← fields.get? key read with
  | some a => return a
  | none => throw (.missingKey key)

end Provision.Toml
