import Provision.Calendar
import Provision.Log
import Provision.Text.Cut

/-!
# Log sinks

A sink collects lines as text. Each line carries the time at which it was written and the process
that wrote it. Lines that the threshold does not admit are dropped, unless they are written
directly.
-/

namespace Provision

/-- A line with the time, in seconds, and the process that wrote it. -/
def Line.stamped (line : Line) (time : Int) (pid : Nat) : String :=
  Calendar.stamp time ++ s!" [{pid}] " ++ line.render

/-- The rows that a line takes up when it is written, one more than its message has line ends. -/
def Line.rows (line : Line) : List String :=
  (Text.splitLines line.render.toList).map String.ofList

/-- The text of an event: a message and then its fields. -/
def eventText (message : String) (fields : List (String × String)) : String :=
  message ++ String.join (fields.map fun field => " " ++ field.1 ++ "=" ++ field.2)

structure Sink where
  threshold : Threshold
  text : String := ""
  deriving DecidableEq, Repr

namespace Sink

/-- The level of the sink was asked for, but it has none. -/
structure LevelNotSet where
  deriving DecidableEq, Repr

def LevelNotSet.message (_ : LevelNotSet) : String := "Logging level is not set"

def level (s : Sink) : Except LevelNotSet Level :=
  match s.threshold with
  | some level => .ok level
  | none => .error {}

def setThreshold (s : Sink) (t : Threshold) : Sink := { s with threshold := t }

/-- Adds a line whatever its level. -/
def write (s : Sink) (time : Int) (pid : Nat) (line : Line) : Sink :=
  { s with text := s.text ++ line.stamped time pid ++ "\n" }

/-- Adds a line if the threshold admits it. -/
def log (s : Sink) (time : Int) (pid : Nat) (line : Line) : Sink :=
  if s.threshold.Admits line.level then s.write time pid line else s

/-- Adds the lines that a computation wrote, as far as the threshold admits them. -/
def logAll (s : Sink) (time : Int) (pid : Nat) (lines : List Line) : Sink :=
  lines.foldl (fun s line => s.log time pid line) s

end Sink

end Provision
