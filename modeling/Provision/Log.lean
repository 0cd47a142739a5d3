import Provision.ParseError

/-!
# Log lines

What a computation has to say while it runs is a list of lines, each with a level. `Traced` pairs a
value with the lines that were written on the way to it, oldest first; the value never depends on
the lines. A threshold keeps the lines that are severe enough.
-/

namespace Provision

/-- How much a line matters, most severe first. -/
inductive Level
  | critical
  | error
  | warning
  | notice
  | info
  | debug
  | trace
  deriving DecidableEq, Repr

namespace Level

def all : List Level := [critical, error, warning, notice, info, debug, trace]

def text : Level → String
  | critical => "CRITICAL"
  | error => "ERROR"
  | warning => "WARNING"
  | notice => "NOTICE"
  | info => "INFO"
  | debug => "DEBUG"
  | trace => "TRACE"

/-- Position in `all`: the smaller the number, the more severe. -/
def verbosity : Level → Nat
  | critical => 0
  | error => 1
  | warning => 2
  | notice => 3
  | info => 4
  | debug => 5
  | trace => 6

/-- Reads the name of a level in any case of its ASCII letters; `WARN` is short for `WARNING`. -/
def parse (s : String) : Except ParseError Level :=
  let name := String.ofList (s.toList.map Char.toUpper)
  if name = "WARN" then .ok warning
  else
    match all.find? (·.text == name) with
    | some level => .ok level
    | none => .error (.unknownLevel s)

end Level

/-- The most verbose level that is kept; without one everything is. -/
abbrev Threshold := Option Level

/-- A line at `level` passes the threshold. -/
def Threshold.Admits (t : Threshold) (level : Level) : Prop :=
  ∀ limit ∈ t, level.verbosity ≤ limit.verbosity

instance (t : Threshold) (level : Level) : Decidable (t.Admits level) :=
  match t with
  | none => .isTrue fun _ h => by simp at h
  | some limit =>
    decidable_of_iff (level.verbosity ≤ limit.verbosity) (by simp [Threshold.Admits])

structure Line where
  level : Level
  text : String
  deriving DecidableEq, Repr

/-- The line as a reader sees it, without the time and the process that wrote it. -/
def Line.render (line : Line) : String := line.level.text ++ " " ++ line.text

/-- A value and the lines that were written on the way to it. -/
structure Traced (α : Type) where
  value : α
  lines : List Line

namespace Traced

instance : Monad Traced where
  pure a := ⟨a, []⟩
  bind x f := ⟨(f x.value).value, x.lines ++ (f x.value).lines⟩

@[simp] theorem value_pure {α : Type} (a : α) : (pure a : Traced α).value = a := rfl

@[simp] theorem lines_pure {α : Type} (a : α) : (pure a : Traced α).lines = [] := rfl

@[simp] theorem value_bind {α β : Type} (x : Traced α) (f : α → Traced β) :
    (x >>= f).value = (f x.value).value := rfl

@[simp] theorem lines_bind {α β : Type} (x : Traced α) (f : α → Traced β) :
    (x >>= f).lines = x.lines ++ (f x.value).lines := rfl

/-- Writes one line. -/
def write (level : Level) (text : String) : Traced Unit := ⟨(), [⟨level, text⟩]⟩

@[simp] theorem value_write (level : Level) (text : String) :
    (write level text).value = () := rfl

def debug : String → Traced Unit := write .debug
def info : String → Traced Unit := write .info
def warning : String → Traced Unit := write .warning

/-- The lines that pass the threshold. -/
def kept {α : Type} (x : Traced α) (t : Threshold) : List Line :=
  x.lines.filter fun line => t.Admits line.level

end Traced

end Provision
