import Mathlib.Logic.Function.Basic
import Mathlib.Order.Lattice

namespace Coio
set_option autoImplicit true

/-- The links of a timer node. `prev` is the parent of a first child and the previous sibling of any
other child. -/
structure TimerHeapLinks (Op : Type u) where
  prev : Option Op := none
  child : Option Op := none
  sibling : Option Op := none
  deriving DecidableEq, Repr

/-- The root of the heap with the fields of the nodes that the queue reads and writes. Every member
function runs under the queue's lock. -/
structure TimerQueue (Op : Type u) (δ : Type v) where
  deadline : Op → δ
  links : Op → TimerHeapLinks Op := fun _ => {}
  root : Option Op := none

namespace TimerQueue

variable [DecidableEq Op] [LinearOrder δ]

def setPrev (q : TimerQueue Op δ) (x : Op) (p : Option Op) : TimerQueue Op δ :=
  { q with links := Function.update q.links x { q.links x with prev := p } }

def setChild (q : TimerQueue Op δ) (x : Op) (c : Option Op) : TimerQueue Op δ :=
  { q with links := Function.update q.links x { q.links x with child := c } }

def setSibling (q : TimerQueue Op δ) (x : Op) (s : Option Op) : TimerQueue Op δ :=
  { q with links := Function.update q.links x { q.links x with sibling := s } }

def clearLinks (q : TimerQueue Op δ) (x : Op) : TimerQueue Op δ :=
  { q with links := Function.update q.links x {} }

/-- `b` becomes the first child of `a`. -/
def attach (q : TimerQueue Op δ) (a b : Op) : TimerQueue Op δ :=
  let q := q.setPrev b (some a)
  let q := q.setSibling b (q.links a).child
  let q := match (q.links a).child with
    | some c => q.setPrev c (some b)
    | none => q
  q.setChild a (some b)

/-- Both arguments are roots of well-formed trees. -/
def meld (q : TimerQueue Op δ) (a b : Op) : TimerQueue Op δ × Op :=
  let (a, b) := if q.deadline b < q.deadline a then (b, a) else (a, b)
  (q.attach a b, a)

/-- The first loop of `merge_children`: pairs are melded and stacked via `sibling`. `none` stands
for an iteration that the fuel does not cover. -/
def pairUp : Nat → TimerQueue Op δ → Option Op → Option Op → Option (TimerQueue Op δ × Option Op)
  | _, q, none, merged => some (q, merged)
  | 0, _, some _, _ => none
  | fuel + 1, q, some a, merged =>
    let b := (q.links a).sibling
    let first := b.bind fun b => (q.links b).sibling
    let q := (q.setPrev a none).setSibling a none
    let (q, a) := match b with
      | none => (q, a)
      | some b => ((q.setPrev b none).setSibling b none).meld a b
    let q := q.setSibling a merged
    pairUp fuel q first (some a)

/-- The second loop of `merge_children`. -/
def meldAll : Nat → TimerQueue Op δ → Op → Option Op → Option (TimerQueue Op δ × Op)
  | _, q, result, none => some (q, result)
  | 0, _, _, some _ => none
  | fuel + 1, q, result, some merged =>
    let next := (q.links merged).sibling
    let q := q.setSibling merged none
    let (q, result) := q.meld result merged
    meldAll fuel q result next

/-- Two-pass pairwise merge of a child list. -/
def mergeChildren (fuel : Nat) (q : TimerQueue Op δ) :
    Option Op → Option (TimerQueue Op δ × Option Op)
  | none => some (q, none)
  | some first =>
    match q.pairUp fuel (some first) none with
    | none | some (_, none) => none
    | some (q, some result) =>
      let merged := (q.links result).sibling
      let q := q.setSibling result none
      (q.meldAll fuel result merged).map fun (q, result) => (q, some result)

def popRoot (fuel : Nat) (q : TimerQueue Op δ) : Option (TimerQueue Op δ × Op) :=
  q.root.bind fun top =>
    (q.mergeChildren fuel (q.links top).child).map fun (q, root) =>
      ({ q with root := root }.clearLinks top, top)

/-- The node is linked and is not the root. -/
def unlink (q : TimerQueue Op δ) (op : Op) : Option (TimerQueue Op δ) :=
  (q.links op).prev.map fun prev =>
    let sibling := (q.links op).sibling
    let q := if (q.links prev).child = some op then q.setChild prev sibling
      else q.setSibling prev sibling
    match sibling with
    | some s => q.setPrev s (some prev)
    | none => q

def add (q : TimerQueue Op δ) (op : Op) : TimerQueue Op δ × Bool :=
  let q := q.clearLinks op
  let (q, root) := match q.root with
    | none => (q, op)
    | some root => q.meld root op
  ({ q with root := some root }, root = op)

def remove (fuel : Nat) (q : TimerQueue Op δ) (op : Op) : Option (TimerQueue Op δ × Bool) :=
  if q.root = some op then
    (q.popRoot fuel).map fun (q, _) => (q, true)
  else if (q.links op).prev = none then
    some (q, false)
  else
    (q.unlink op).bind fun q =>
    (q.mergeChildren fuel (q.links op).child).bind fun (q, subtree) =>
      match subtree with
      | none => some (q.clearLinks op, true)
      | some subtree => q.root.map fun root =>
        let (q, root) := q.meld root subtree
        ({ q with root := some root }.clearLinks op, true)

/-- The nodes go to the back of the list one by one. -/
def takeReadyTimers (fuel : Nat) (now : δ) :
    Nat → TimerQueue Op δ → List Op → Option (TimerQueue Op δ × List Op)
  | n, q, list =>
    match q.root with
    | none => some (q, list)
    | some root =>
      if now < q.deadline root then some (q, list)
      else match n with
        | 0 => none
        | n + 1 => (q.popRoot fuel).bind fun (q, top) =>
          takeReadyTimers fuel now n q (list ++ [top])

def earliest (q : TimerQueue Op δ) : Option δ := q.root.map q.deadline

end TimerQueue
end Coio
