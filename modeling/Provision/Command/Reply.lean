/-!
# Replies

What a command says: text for the two outputs, and whether it failed. A failure names its causes one
below the other, numbered if there are several.
-/

namespace Provision

structure Reply where
  out : String := ""
  err : String := ""
  failed : Bool := false
  deriving DecidableEq, Repr

namespace Reply

/-- A reply of one line. -/
def line (text : String) : Reply := { out := text ++ "\n" }

/-- The first reply and then the second. -/
def andThen (first second : Reply) : Reply :=
  ⟨first.out ++ second.out, first.err ++ second.err, first.failed || second.failed⟩

def exitCode (r : Reply) : Nat := if r.failed then 1 else 0

end Reply

/-- A failure with what lies behind it, the nearest cause first. -/
structure Failure where
  message : String
  causes : List String := []
  deriving DecidableEq, Repr

namespace Failure

/-- The failure that a chain of messages tells, the outermost first. -/
def ofChain : List String → Failure
  | [] => ⟨"", []⟩
  | message :: causes => ⟨message, causes⟩

/-- A text with its lines after the first indented. -/
def indentLines (width : Nat) (text : String) : String :=
  ("\n" ++ String.ofList (List.replicate width ' ')).intercalate (text.splitOn "\n")

def causeText (text : String) : String := "\n    " ++ indentLines 4 text

def numberedText (number : Nat) (text : String) : String :=
  let digits := toString number
  "\n" ++ String.ofList (List.replicate (5 - digits.length) ' ') ++ digits ++ ": " ++
    indentLines 7 text

def text (f : Failure) : String :=
  "Error: " ++ f.message ++
    (match f.causes with
    | [] => ""
    | [cause] => "\n\nCaused by:" ++ causeText cause
    | causes =>
      "\n\nCaused by:" ++ String.join (causes.zipIdx.map fun c => numberedText c.2 c.1)) ++
    "\n"

def reply (f : Failure) : Reply := { err := f.text, failed := true }

end Failure

end Provision
