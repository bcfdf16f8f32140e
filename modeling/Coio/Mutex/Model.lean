import Coio.Lib.Linked
import Coio.Lib.Transition

namespace Coio.AsyncMutex
open Transition
open Function (update)
set_option autoImplicit true

/-- The word `state_`. `locked none` is `locked_but_no_waiter`; otherwise it is the address of the
waiter that was pushed last. -/
inductive Word (ι : Type u)
  | notLocked
  | locked (top : Option ι)
  deriving DecidableEq, Repr

/-- The next step of `start()`. The operation is `queued` from the second compare-exchange on, which
is the last step of `start()` then, and `granted` after the first one. -/
inductive StartPc (ι : Type u)
  | idle
  | guess
  | link (old : Option ι)
  | push (old : Option ι)
  | queued
  | granted
  deriving DecidableEq, Repr

/-- The next step of `unlock()` with its local pointers. -/
inductive UnlockPc (ι : Type u)
  | idle
  | load
  | cas
  | exchange
  | reverse (current oldHead : Option ι)
  | storeHead (oldHead : Option ι)
  | complete (oldHead : ι)
  deriving DecidableEq, Repr

/-- A party that owns the mutex: its lock operation has completed or its `try_lock()` succeeded. -/
inductive Party (ι : Type u) (κ : Type v)
  | locker (i : ι)
  | tryLocker (k : κ)
  deriving DecidableEq, Repr

/-- A mutex with the lock operations at the addresses `ι` and the threads `κ` that call `try_lock()`
and `unlock()`. The address of a completed operation may be used by a new one. The last five fields
record who owns the mutex and what has happened. -/
structure State (ι : Type u) (κ : Type v) where
  word : Word ι := .notLocked
  head : Option ι := none
  next : ι → Option ι := fun _ => none
  start : ι → StartPc ι := fun _ => .idle
  unlock : κ → UnlockPc ι := fun _ => .idle
  owners : List (Party ι κ) := []
  starts : ι → Nat := fun _ => 0
  completions : ι → Nat := fun _ => 0
  pushes : List ι := []
  handoffs : List ι := []

inductive Act (ι : Type u) (κ : Type v)
  | begin (i : ι)
  | guess (i : ι)
  | link (i : ι) (old : Option ι)
  | push (i : ι) (old : Option ι) (spurious : Bool)
  | setValue (i : ι)
  | tryLock (k : κ)
  | unlock (k : κ) (owner : Party ι κ)
  | load (k : κ)
  | cas (k : κ)
  | exchange (k : κ) (top : Option ι)
  | reverse (k : κ) (current oldHead : Option ι)
  | storeHead (k : κ) (oldHead : ι)
  | complete (k : κ) (oldHead : ι)
  deriving DecidableEq, Repr

variable [DecidableEq ι]

/-- `execution::set_value` on the receiver of the operation. -/
def State.setValue (s : State ι κ) (i : ι) : State ι κ :=
  { s with
    start := update s.start i .idle
    owners := .locker i :: s.owners
    completions := update s.completions i (s.completions i + 1) }

@[simp, grind =] theorem State.setValue_start (s : State ι κ) (i j : ι) :
    (s.setValue i).start j = if j = i then .idle else s.start j :=
  Function.update_apply ..

@[simp, grind =] theorem State.setValue_completions (s : State ι κ) (i j : ι) :
    (s.setValue i).completions j = if j = i then s.completions i + 1 else s.completions j :=
  Function.update_apply ..

def step [DecidableEq κ] (s : State ι κ) : Act ι κ → Option (State ι κ)
  | .begin i => if s.start i = .idle then
      some { s with start := update s.start i .guess, starts := update s.starts i (s.starts i + 1) }
    else none
  | .guess i => if s.start i = .guess then
      match s.word with
      | .notLocked => some { s with start := update s.start i .granted, word := .locked none }
      | .locked old => some { s with start := update s.start i (.link old) }
    else none
  | .link i old => if s.start i = .link old then
      some { s with start := update s.start i (.push old), next := update s.next i old }
    else none
  | .push i old spurious => if s.start i = .push old then
      if s.word = .locked old ∧ spurious = false then
        some { s with
          start := update s.start i .queued, word := .locked (some i), pushes := s.pushes ++ [i] }
      else some { s with start := update s.start i .guess }
    else none
  | .setValue i => if s.start i = .granted then some (s.setValue i) else none
  | .tryLock k => if s.word = .notLocked then
      some { s with word := .locked none, owners := .tryLocker k :: s.owners }
    else some s
  | .unlock k owner => if owner ∈ s.owners ∧ s.unlock k = .idle then
      some { s with unlock := update s.unlock k .load, owners := s.owners.erase owner }
    else none
  | .load k => if s.unlock k = .load then
      match s.head with
      | none => some { s with unlock := update s.unlock k .cas }
      | some h => some { s with unlock := update s.unlock k (.storeHead (some h)) }
    else none
  | .cas k => if s.unlock k = .cas then
      if s.word = .locked none then
        some { s with unlock := update s.unlock k .idle, word := .notLocked }
      else some { s with unlock := update s.unlock k .exchange }
    else none
  | .exchange k top => if s.unlock k = .exchange ∧ s.word = .locked top then
      some { s with unlock := update s.unlock k (.reverse top none), word := .locked none }
    else none
  | .reverse k current oldHead => if s.unlock k = .reverse current oldHead then
      match current with
      | none => some { s with unlock := update s.unlock k (.storeHead oldHead) }
      | some c => some { s with
          unlock := update s.unlock k (.reverse (s.next c) (some c))
          next := update s.next c oldHead }
    else none
  | .storeHead k oldHead => if s.unlock k = .storeHead (some oldHead) then
      some { s with unlock := update s.unlock k (.complete oldHead), head := s.next oldHead }
    else none
  | .complete k oldHead => if s.unlock k = .complete oldHead then
      some { s.setValue oldHead with
        unlock := update s.unlock k .idle, handoffs := s.handoffs ++ [oldHead] }
    else none

def system (ι : Type u) (κ : Type v) [DecidableEq ι] [DecidableEq κ] :
    System (State ι κ) (Act ι κ) where
  init := {}
  step := step

end Coio.AsyncMutex
