import Coio.Lib.Linked
import Coio.Lib.Transition

namespace Coio.AsyncLatch
open Transition
open Function (update)
set_option autoImplicit true

/-- The word `head_` of `atomic_intrusive_stack`: the stack itself before the first push, null after
`pop_all()`, otherwise the top node. -/
inductive Head (ι : Type u)
  | neverPushed
  | null
  | node (top : ι)
  deriving DecidableEq, Repr

def Head.pointer : Head ι → Option ι
  | .node top => some top
  | _ => none

/-- The next step of a thread in `count_down()`, in `notify_waiters_()` or in the rest of `start()`.
`op` is the waiter whose `start()` made the call, if any. -/
inductive Pc (ι : Type u)
  | idle
  | fetchSub (n : Nat) (op : Option ι)
  | popAll (op : Option ι)
  | notify (node : Option ι) (op : Option ι)
  | setValue (op : ι)
  | load (op : ι)
  | link (op : ι) (old : Head ι)
  | cas (op : ι) (old : Head ι)
  deriving DecidableEq, Repr

/-- A latch with waiters at the addresses `ι` and threads `κ`. `asserts` says that no assertion has
failed; `budget` is what the calls may still subtract and the last two fields count the starts and
the completions at each address. -/
structure State (ι : Type u) (κ : Type v) where
  counter : Nat
  head : Head ι := .neverPushed
  next : ι → Option ι := fun _ => none
  pc : κ → Pc ι := fun _ => .idle
  asserts : Bool := true
  budget : Nat
  starts : ι → Nat := fun _ => 0
  completions : ι → Nat := fun _ => 0

inductive Act (ι : Type u) (κ : Type v)
  | countDown (k : κ) (n : Nat)
  | start (k : κ) (i : ι) (n : Nat)
  | fetchSub (k : κ) (n : Nat) (op : Option ι)
  | popAll (k : κ) (op : Option ι)
  | notify (k : κ) (node : Option ι) (op : Option ι)
  | setValue (k : κ) (i : ι)
  | load (k : κ) (i : ι)
  | link (k : κ) (i : ι) (old : Head ι)
  | cas (k : κ) (i : ι) (old : Head ι) (spurious : Bool)
  deriving DecidableEq, Repr

variable [DecidableEq ι] [DecidableEq κ]

def step (s : State ι κ) : Act ι κ → Option (State ι κ)
  | .countDown k n => if s.pc k = .idle ∧ n ≤ s.budget then
      some { s with pc := update s.pc k (.fetchSub n none), budget := s.budget - n }
    else none
  | .start k i n => if s.pc k = .idle ∧ n ≤ s.budget ∧ s.starts i = s.completions i then
      some { s with
        pc := update s.pc k (.fetchSub n (some i)), budget := s.budget - n
        starts := update s.starts i (s.starts i + 1) }
    else none
  | .fetchSub k n op => if s.pc k = .fetchSub n op then
      some { s with
        counter := s.counter - n
        asserts := s.asserts && n ≤ s.counter
        pc := update s.pc k <|
          if s.counter = n then .popAll op
          else match op with
            | none => .idle
            | some i => .load i }
    else none
  | .popAll k op => if s.pc k = .popAll op then
      some { s with pc := update s.pc k (.notify s.head.pointer op), head := .null }
    else none
  | .notify k node op => if s.pc k = .notify node op then
      match node with
      | some i => some { s with
          pc := update s.pc k (.notify (s.next i) op)
          completions := update s.completions i (s.completions i + 1) }
      | none => match op with
        | none => some { s with pc := update s.pc k .idle }
        | some i => some { s with pc := update s.pc k (.setValue i) }
    else none
  | .setValue k i => if s.pc k = .setValue i then
      some { s with
        pc := update s.pc k .idle, completions := update s.completions i (s.completions i + 1) }
    else none
  | .load k i => if s.pc k = .load i then
      some { s with pc := update s.pc k (.link i s.head) }
    else none
  | .link k i old => if s.pc k = .link i old then
      some { s with pc := update s.pc k (.cas i old), next := update s.next i old.pointer }
    else none
  | .cas k i old spurious => if s.pc k = .cas i old then
      if s.head = old ∧ spurious = false then
        some { s with
          head := .node i, pc := update s.pc k (if old = .null then .popAll none else .idle) }
      else some { s with pc := update s.pc k (.link i s.head) }
    else none

def system (ι : Type u) (κ : Type v) [DecidableEq ι] [DecidableEq κ] (count : Nat) :
    System (State ι κ) (Act ι κ) where
  init := { counter := count, budget := count }
  step := step

end Coio.AsyncLatch
