import Provision.Evr.Segments
import Provision.ParseError
import Provision.Text.Blank
import Provision.Text.Cut

/-!
# Versions

An EVR is an epoch, a version and perhaps a release, written `[epoch:]version[-release]`. There are
three comparisons.

1. `rank` is the package manager's: epoch, then version, then release, where a missing release is
   the oldest. Versions and releases compare by segments, so `1.0` and `1_0` are equal.
2. `rankLoosely` leaves the release out when either side has none; constraints use it.
3. `compare` is `rank`, made strict on the texts, so that only equal EVRs compare as equal.
-/

namespace Provision

structure Evr where
  epoch : Nat
  version : String
  release : Option String
  deriving DecidableEq, Repr, Inhabited

namespace Evr

/-- The epoch before the first colon, where an empty one is zero, and the rest. -/
def readEpoch (s : List Char) : Except ParseError (Nat × List Char) :=
  match Text.cutFirst ':' s with
  | none => .ok (0, s)
  | some ([], rest) => .ok (0, rest)
  | some (digits, rest) =>
    match Text.readNumeral Text.maxWord digits with
    | .ok epoch => .ok (epoch, rest)
    | .error reason => .error (.invalidEpoch (String.ofList s) reason)

/-- Version and release, where the release is what follows the last dash. -/
def cutRelease (s : List Char) : List Char × Option (List Char) :=
  match Text.cutLast '-' s with
  | some (version, release) => (version, some release)
  | none => (s, none)

def ofChars (s : List Char) : Except ParseError Evr := do
  let s := Text.trim s
  let (epoch, rest) ← readEpoch s
  match cutRelease rest with
  | ([], _) => .error (.emptyVersion (String.ofList s))
  | (_, some []) => .error (.emptyRelease (String.ofList s))
  | (version, release) =>
    .ok ⟨epoch, String.ofList version, release.map String.ofList⟩

/-- Reads `[epoch:]version[-release]` without the blanks around it. -/
def parse (s : String) : Except ParseError Evr := ofChars s.toList

/-- The written form; an epoch of zero is left out. -/
def text (e : Evr) : String :=
  (if e.epoch = 0 then "" else toString e.epoch ++ ":") ++ e.version ++
    (match e.release with
    | none => ""
    | some release => "-" ++ release)

def compareTexts (a b : String) : Ordering := compareSegments a.toList b.toList

/-- Epoch and version, the part in which all comparisons agree. -/
def rankVersion (a b : Evr) : Ordering :=
  (compare a.epoch b.epoch).then (compareTexts a.version b.version)

def rank (a b : Evr) : Ordering :=
  (rankVersion a b).then
    (match a.release, b.release with
    | some r, some s => compareTexts r s
    | none, none => .eq
    | none, some _ => .lt
    | some _, none => .gt)

def rankLoosely (a b : Evr) : Ordering :=
  (rankVersion a b).then
    (match a.release, b.release with
    | some r, some s => compareTexts r s
    | _, _ => .eq)

instance : Ord Evr where
  compare a b :=
    (rank a b).then ((compare a.version b.version).then (compare a.release b.release))

/-- `a` is older than `b`. -/
def Older (a b : Evr) : Prop := compare a b = .lt

instance (a b : Evr) : Decidable (Older a b) := inferInstanceAs (Decidable (_ = _))

end Evr

end Provision
