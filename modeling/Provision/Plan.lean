import Provision.Index.Query
import Provision.Log
import Provision.Problem
import Provision.Transaction

/-!
# Plans

A plan puts changes into an order in which they can be carried out. `mustPrecede` says which change
has to come before which:

1. what takes a package's place comes before its removal;
2. packages may ask to be installed before, or removed after, others by name;
3. a provider is installed before what requires it, and removed after it.

Among the orders that respect this the one is chosen that is least by name and architecture. Where
the rules go round in a circle, the edge that leaves the largest change of the circle is dropped,
and the plan carries a warning.
-/

namespace Provision.Plan

/-! ## The graph of what precedes what -/

/-- The package of a change declares that it requires something that the other package offers. -/
def requiresOf (ix : Index) (c d : Change) : Bool :=
  ((ix.metadata? c.package).map Metadata.requires).any fun requires =>
    requires.any (ix.meets d.package)

def metadataOf (ix : Index) (c : Change) : Metadata := (ix.metadata? c.package).getD {}

/-- The change `c` has to come before `d`. -/
def mustPrecede (ix : Index) (c d : Change) : Bool :=
  (c.action.isInbound && d.action.isRemoval &&
      (d.replacedBy.map Package.build == some c.package.build)) ||
  (c.action.isInbound && d.action.isInbound &&
      ((metadataOf ix c).installBefore.contains d.package.name || requiresOf ix d c)) ||
  (c.action.isRemoval && d.action.isRemoval &&
      ((metadataOf ix d).removeAfter.contains c.package.name || requiresOf ix c d))

/-- Changes by name and architecture, then by the rank of the action and by version. -/
def compareChanges : Change → Change → Ordering :=
  compareLex (compareOn fun c => c.package.name) <|
  compareLex (compareOn fun c => c.package.arch) <|
  compareLex (compareOn fun c => c.action.rank) (compareOn fun c => c.package.evr)

/-- Changes with numbers from zero, and edges from one number to another. -/
structure Graph where
  nodes : List Change
  edges : List (Nat × Nat)
  deriving Repr

namespace Graph

/-- The edges between all numbered changes. -/
def edgesAmong (ix : Index) (nodes : List (Change × Nat)) : List (Nat × Nat) :=
  nodes.flatMap fun c =>
    (nodes.filter fun d => c.2 ≠ d.2 && mustPrecede ix c.1 d.1).map fun d => (c.2, d.2)

def ofChanges (ix : Index) (changes : List Change) : Graph :=
  let nodes := changes.mergeSort fun c d => (compareChanges c d).isLE
  ⟨nodes, edgesAmong ix nodes.zipIdx⟩

def numbers (g : Graph) : List Nat := List.range g.nodes.length

/-- Something that is still left has to come first. -/
def isBlocked (g : Graph) (left : List Nat) (n : Nat) : Bool :=
  g.edges.any fun e => e.2 == n && left.contains e.1

/--
Takes the smallest number that nothing blocks, again and again. What remains in the end lies on
circles or behind them.
-/
def takeFree (g : Graph) : Nat → List Nat → List Nat × List Nat
  | 0, left => ([], left)
  | bound + 1, left =>
    match left.find? fun n => !g.isBlocked left n with
    | none => ([], left)
    | some n =>
      let (order, rest) := g.takeFree bound (left.erase n)
      (n :: order, rest)

/-- All numbers in order, and those that could not be placed. -/
def sort (g : Graph) : List Nat × List Nat := g.takeFree g.nodes.length g.numbers

/-! ## Circles -/

/-- The smallest of the numbers left from which an edge leads to `n`. -/
def predecessor? (g : Graph) (left : List Nat) (n : Nat) : Option Nat :=
  left.find? fun m => g.edges.contains (m, n)

/-- The circle as a list that starts with its smallest number. -/
def fromSmallest (circle : List Nat) : List Nat :=
  match circle.min? with
  | none => []
  | some least => circle.dropWhile (· ≠ least) ++ circle.takeWhile (· ≠ least)

/-- Walks from predecessor to predecessor until a number comes again. The last one is in front. -/
def walkBack (g : Graph) (left : List Nat) : Nat → List Nat → List Nat
  | 0, _ => []
  | _ + 1, [] => []
  | bound + 1, current :: walk =>
    match g.predecessor? left current with
    | none => []
    | some n =>
      if (current :: walk).contains n then
        fromSmallest ((current :: walk).takeWhile (· ≠ n) ++ [n])
      else g.walkBack left bound (n :: current :: walk)

/-- A circle among the numbers left, in the direction of the edges. -/
def circle (g : Graph) (left : List Nat) : List Nat :=
  match left with
  | [] => []
  | start :: _ => g.walkBack left (left.length + 1) [start]

/-- The edge of the circle that leaves its largest number. -/
def edgeToDrop? (circle : List Nat) : Option (Nat × Nat) :=
  let next := circle.drop 1 ++ circle.take 1
  circle.max?.bind fun largest => (circle.zip next).find? fun e => e.1 = largest

def packageOf? (g : Graph) (n : Nat) : Option Package := (g.nodes[n]?).map Change.package

def nameOf (g : Graph) (n : Nat) : String := ((g.packageOf? n).map Package.name).getD ""

def warning (g : Graph) (circle : List Nat) (dropped : Nat × Nat) : Problem :=
  let path := " -> ".intercalate ((circle ++ circle.take 1).map g.nameOf)
  ⟨.orderingCycle, circle.filterMap g.packageOf?,
    s!"ordering cycle {path}; ignoring {g.nameOf dropped.1} -> {g.nameOf dropped.2}"⟩

def dropEdge (g : Graph) (e : Nat × Nat) : Graph := { g with edges := g.edges.filter (· ≠ e) }

/--
Sorts the graph, dropping an edge for each circle found. Every round drops an edge, so `bound` may
be the number of edges; without an edge to drop the numbers stay as they are.
-/
def order (bound : Nat) (g : Graph) : Traced (List Nat × List Problem) :=
  let (order, left) := g.sort
  if left.isEmpty then return (order, [])
  else
    let circle := g.circle left
    match bound, edgeToDrop? circle with
    | bound + 1, some e => do
      let warning := g.warning circle e
      Traced.warning warning.message
      let (order, warnings) ← Graph.order bound (g.dropEdge e)
      return (order, warning :: warnings)
    | _, _ => return (g.numbers, [])

end Graph

/-! ## Ordering changes -/

/-- The first change in a slot that an earlier one is in, with the earlier one. -/
def firstDouble? (seen : List Change) : List Change → Option (Change × Change)
  | [] => none
  | c :: rest =>
    match seen.find? fun d => d.package.slot = c.package.slot with
    | some d => some (d, c)
    | none => firstDouble? (c :: seen) rest

def doubleProblem (c d : Change) : Problem :=
  ⟨.conflicts, [c.package, d.package],
    s!"conflicting actions on {d.package.slot.text}: {c.action.text} {c.package.nevra}" ++
      s!" and {d.action.text} {d.package.nevra}"⟩

end Plan

/-- The items of a transaction in order, with warnings about circles. -/
structure Plan where
  items : List Item
  warnings : List Problem
  deriving Repr

namespace Plan

/-- Orders changes; two changes in one slot are a problem. -/
def ofChanges (ix : Index) (changes : List Change) : Traced (Except Problem Plan) :=
  match firstDouble? [] changes with
  | some (c, d) => return .error (doubleProblem c d)
  | none => do
    let g := Graph.ofChanges ix changes
    let (order, warnings) ← g.order g.edges.length
    let items := (order.filterMap fun n => g.nodes[n]?).mapIdx Item.ofChange
    return .ok ⟨items, warnings⟩

end Plan

/-- A transaction of items in order, with the next number of the counter. -/
def Transaction.ofItems (items : List Item) (ids : Counter) : Traced (Transaction × Counter) := do
  let (id, ids) := ids.take
  Traced.debug s!"Planned transaction {id} with {items.length} items"
  return (⟨id, .created, items⟩, ids)

end Provision
