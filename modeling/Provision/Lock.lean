import Provision.Log
import Provision.Text.Quoted

/-!
# The execution lock

At most one transaction is carried out at a time: who carries one out holds a lock. Who finds it
held tries again after waits that double each time, until a deadline.
-/

namespace Provision

/-- The process that holds the lock, if one does. -/
structure Lock where
  holder : Option Nat := none
  deriving DecidableEq, Repr

namespace Lock

def isHeld (l : Lock) : Bool := l.holder.isSome

/-- The waits before further attempts: each twice the one before, none past the end. -/
def waits : Nat → Nat → Nat → List Nat
  | 0, _, _ => []
  | _ + 1, _, 0 => []
  | bound + 1, delay, left + 1 =>
    min delay (left + 1) :: waits bound (2 * delay) (left + 1 - min delay (left + 1))

/-- The first wait, in milliseconds. -/
def firstDelay : Nat := 100

def waitsFor (timeout : Nat) : List Nat := waits timeout firstDelay timeout

/-- Some milliseconds as text, in the largest unit that is not below one. -/
def durationText (milliseconds : Nat) : String :=
  if milliseconds = 0 then "0ns"
  else if milliseconds < 1000 then s!"{milliseconds}ms"
  else
    let digits := (toString (1000 + milliseconds % 1000)).toList.drop 1
    match (digits.reverse.dropWhile (· == '0')).reverse with
    | [] => s!"{milliseconds / 1000}s"
    | fraction => s!"{milliseconds / 1000}.{String.ofList fraction}s"

/-- The lock stayed held until the deadline. -/
structure Unavailable where
  place : String
  attempts : Nat
  timeout : Nat
  holder : Option Nat
  deriving DecidableEq, Repr

/-- The message, with the number of attempts and the holder as they are to be written. -/
def Unavailable.messageWith (e : Unavailable) (attempts : String) (holder : Nat → String) :
    String :=
  s!"Execution lock unavailable: {e.place} still locked after {attempts} attempts over " ++
    durationText e.timeout ++
    (match e.holder with
    | none => ""
    | some pid => s!" (held by pid {holder pid})")

def Unavailable.message (e : Unavailable) : String :=
  e.messageWith (toString e.attempts) toString

/-- Takes the lock for process `pid`. Nobody else lets go of it meanwhile. -/
def acquire (l : Lock) (place : String) (timeout pid : Nat) : Traced (Except Unavailable Lock) :=
  if l.isHeld then do
    (waitsFor timeout).forM fun wait =>
      Traced.debug s!"Execution lock busy, retrying in {durationText wait}"
    return .error ⟨place, (waitsFor timeout).length + 1, timeout, l.holder⟩
  else do
    Traced.info s!"Acquired execution lock at {Text.quoted place}"
    return .ok ⟨some pid⟩

def release (place : String) : Traced Lock := do
  Traced.info s!"Released execution lock at {Text.quoted place}"
  return ⟨none⟩

end Lock

end Provision
