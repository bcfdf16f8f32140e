import Coio.Lib.Transition
import Coio.Semaphore.WaitingList

namespace Coio.AsyncSemaphore
open Transition
open Function (update)
set_option autoImplicit true

/-- How an acquire completes. -/
inductive Outcome
  | value
  | stopped
  deriving DecidableEq, Repr

/-- The next step of `start()`. A `queued` operation waits; a `granted` one was taken from the list
by `release()` and a `cancelled` one by `unregister_`. -/
inductive StartPc
  | idle
  | test
  | emplace
  | emplaced
  | lock
  | retest
  | load
  | cas (current : Nat)
  | enqueue
  | unlockQueued
  | queued
  | unlock (o : Outcome)
  | reset (o : Outcome)
  | complete (o : Outcome)
  | granted
  | cancelled
  deriving DecidableEq, Repr

/-- The stop callback of an operation: not there, registered, or the next step of
`on_stop_requested()`. -/
inductive CallbackPc
  | none
  | registered
  | lock
  | unregister
  | unlock (found : Bool)
  | setStopped
  | returned
  deriving DecidableEq, Repr

/-- The next step of a thread in `try_acquire()` or in `release()`. -/
inductive ThreadPc (ι : Type u)
  | idle
  | tryLoad
  | tryCas (current : Nat)
  | returned (acquired : Bool)
  | lock
  | pop
  | load
  | cas (current : Nat)
  | terminate
  | unlock (head : Option ι)
  | reset (head : ι)
  | setValue (head : ι)
  deriving DecidableEq, Repr

/-- Who holds `mtx_`. -/
inductive Party (ι : Type u) (κ : Type v)
  | start (i : ι)
  | callback (i : ι)
  | thread (k : κ)
  deriving DecidableEq, Repr

/-- A semaphore with the acquire operations at the addresses `ι` and the threads `κ` that call
`try_acquire()` and `release()`. The fields from `grants` on count what has happened: permits taken
and permits handed out to the callers, calls of `release()` and their effects, and at each address
the starts, the permits and the completions; `tickets` numbers the queued waiters and `served` lists
the numbers of those that `release()` took. -/
structure State (ι : Type u) (κ : Type v) where
  counter : Nat
  waiters : WaitingList ι := {}
  mtx : Option (Party ι κ) := none
  stop : ι → Bool := fun _ => false
  stoppable : ι → Bool := fun _ => false
  start : ι → StartPc := fun _ => .idle
  callback : ι → CallbackPc := fun _ => .none
  thread : κ → ThreadPc ι := fun _ => .idle
  grants : Nat := 0
  delivered : Nat := 0
  calls : Nat := 0
  releases : Nat := 0
  starts : ι → Nat := fun _ => 0
  permits : ι → Nat := fun _ => 0
  values : ι → Nat := fun _ => 0
  stops : ι → Nat := fun _ => 0
  arrivals : Nat := 0
  ticket : ι → Nat := fun _ => 0
  served : List Nat := []

inductive StartAct
  | start (stoppable stop : Bool)
  | test
  | emplace
  | emplaced
  | lock
  | retest
  | load
  | cas (current : Nat) (spurious : Bool)
  | enqueue
  | unlockQueued
  | unlock (o : Outcome)
  | reset (o : Outcome)
  | complete (o : Outcome)
  deriving DecidableEq, Repr

inductive CallbackAct
  | invoke
  | lock
  | unregister
  | unlock (found : Bool)
  | setStopped
  deriving DecidableEq, Repr

inductive ThreadAct (ι : Type u)
  | tryAcquire
  | tryLoad
  | tryCas (current : Nat) (spurious : Bool)
  | takeResult (acquired : Bool)
  | release
  | lock
  | pop
  | load
  | cas (current : Nat) (spurious : Bool)
  | unlock (head : Option ι)
  | reset (head : ι)
  | setValue (head : ι)
  deriving DecidableEq, Repr

inductive Act (ι : Type u) (κ : Type v)
  | stop (S : ι → Bool)
  | start (i : ι) (a : StartAct)
  | callback (i : ι) (a : CallbackAct)
  | thread (k : κ) (a : ThreadAct ι)

/-- `stop_cb_.reset()` waits for a callback that is running. -/
def CallbackPc.Resettable : CallbackPc → Bool
  | .none | .registered | .returned => true
  | _ => false

variable [DecidableEq ι] [DecidableEq κ]

/-- Set-value or set-stopped on the receiver of an operation. -/
def State.finish (s : State ι κ) (i : ι) : Outcome → State ι κ
  | .value => { s with
      start := update s.start i .idle, values := update s.values i (s.values i + 1)
      delivered := s.delivered + 1 }
  | .stopped => { s with
      start := update s.start i .idle, stops := update s.stops i (s.stops i + 1) }

/-- The steps of `start()`. -/
def startStep (s : State ι κ) (i : ι) : StartAct → Option (State ι κ)
  | .start stoppable stop => if s.start i = .idle then
      some { s with
        start := update s.start i (if stoppable then .test else .lock)
        stoppable := update s.stoppable i stoppable, stop := update s.stop i stop
        starts := update s.starts i (s.starts i + 1) }
    else none
  | .test => if s.start i = .test then
      some { s with
        start := update s.start i (if s.stop i then .complete .stopped else .emplace) }
    else none
  -- a callback whose stop is already requested runs before `emplace()` returns
  | .emplace => if s.start i = .emplace then
      if s.stop i then some { s with
        start := update s.start i .emplaced, callback := update s.callback i .lock }
      else some { s with
        start := update s.start i .lock, callback := update s.callback i .registered }
    else none
  | .emplaced => if s.start i = .emplaced ∧ s.callback i = .returned then
      some { s with start := update s.start i .lock }
    else none
  | .lock => if s.start i = .lock ∧ s.mtx = none then
      some { s with
        start := update s.start i (if s.stoppable i then .retest else .load)
        mtx := some (.start i) }
    else none
  | .retest => if s.start i = .retest then
      some { s with start := update s.start i (if s.stop i then .unlock .stopped else .load) }
    else none
  | .load => if s.start i = .load then
      some { s with
        start := update s.start i (if s.counter = 0 then .enqueue else .cas s.counter) }
    else none
  | .cas current spurious => if s.start i = .cas current then
      if s.counter = current ∧ spurious = false then some { s with
        start := update s.start i (.unlock .value), counter := current - 1
        grants := s.grants + 1, permits := update s.permits i (s.permits i + 1) }
      else some { s with
        start := update s.start i (if s.counter = 0 then .enqueue else .cas s.counter) }
    else none
  | .enqueue => if s.start i = .enqueue then
      some { s with
        start := update s.start i .unlockQueued, waiters := s.waiters.push i
        ticket := update s.ticket i s.arrivals, arrivals := s.arrivals + 1 }
    else none
  | .unlockQueued => if s.start i = .unlockQueued then
      some { s with start := update s.start i .queued, mtx := none }
    else none
  | .unlock o => if s.start i = .unlock o then
      some { s with start := update s.start i (.reset o), mtx := none }
    else none
  | .reset o => if s.start i = .reset o ∧ (s.callback i).Resettable then
      some { s with start := update s.start i (.complete o), callback := update s.callback i .none }
    else none
  | .complete o => if s.start i = .complete o then some (s.finish i o) else none

/-- The steps of `on_stop_requested()`. -/
def callbackStep (s : State ι κ) (i : ι) : CallbackAct → Option (State ι κ)
  | .invoke => if s.callback i = .registered ∧ s.stop i then
      some { s with callback := update s.callback i .lock }
    else none
  | .lock => if s.callback i = .lock ∧ s.mtx = none then
      some { s with callback := update s.callback i .unregister, mtx := some (.callback i) }
    else none
  | .unregister => if s.callback i = .unregister then
      match s.waiters.unregister i with
      | (waiters, true) => some { s with
          waiters := waiters, callback := update s.callback i (.unlock true)
          start := update s.start i .cancelled }
      | (_, false) => some { s with callback := update s.callback i (.unlock false) }
    else none
  | .unlock found => if s.callback i = .unlock found then
      some { s with
        callback := update s.callback i (if found then .setStopped else .returned), mtx := none }
    else none
  | .setStopped => if s.callback i = .setStopped then
      some { s.finish i .stopped with callback := update s.callback i .none }
    else none

/-- The steps of `try_acquire()` and `release()`. -/
def threadStep (max : Nat) (s : State ι κ) (k : κ) : ThreadAct ι → Option (State ι κ)
  | .tryAcquire => if s.thread k = .idle then
      some { s with thread := update s.thread k .tryLoad }
    else none
  | .tryLoad => if s.thread k = .tryLoad then
      some { s with
        thread := update s.thread k
          (if s.counter = 0 then .returned false else .tryCas s.counter) }
    else none
  | .tryCas current spurious => if s.thread k = .tryCas current then
      if s.counter = current ∧ spurious = false then some { s with
        thread := update s.thread k (.returned true), counter := current - 1
        grants := s.grants + 1 }
      else some { s with
        thread := update s.thread k
          (if s.counter = 0 then .returned false else .tryCas s.counter) }
    else none
  | .takeResult acquired => if s.thread k = .returned acquired then
      some { s with
        thread := update s.thread k .idle, delivered := s.delivered + acquired.toNat }
    else none
  | .release => if s.thread k = .idle then
      some { s with thread := update s.thread k .lock, calls := s.calls + 1 }
    else none
  | .lock => if s.thread k = .lock ∧ s.mtx = none then
      some { s with thread := update s.thread k .pop, mtx := some (.thread k) }
    else none
  | .pop => if s.thread k = .pop then
      match s.waiters.pop with
      | (waiters, some head) => some { s with
          waiters := waiters, thread := update s.thread k (.unlock (some head))
          start := update s.start head .granted
          permits := update s.permits head (s.permits head + 1)
          grants := s.grants + 1, releases := s.releases + 1
          served := s.served ++ [s.ticket head] }
      | (_, none) => some { s with thread := update s.thread k .load }
    else none
  | .load => if s.thread k = .load then
      some { s with
        thread := update s.thread k (if s.counter = max then .terminate else .cas s.counter) }
    else none
  | .cas current spurious => if s.thread k = .cas current then
      if s.counter = current ∧ spurious = false then some { s with
        thread := update s.thread k (.unlock none), counter := current + 1
        releases := s.releases + 1 }
      else some { s with
        thread := update s.thread k (if s.counter = max then .terminate else .cas s.counter) }
    else none
  | .unlock head => if s.thread k = .unlock head then
      some { s with
        thread := update s.thread k (match head with
          | none => .idle
          | some i => .reset i)
        mtx := none }
    else none
  | .reset head => if s.thread k = .reset head ∧ (s.callback head).Resettable then
      some { s with
        thread := update s.thread k (.setValue head), callback := update s.callback head .none }
    else none
  | .setValue head => if s.thread k = .setValue head then
      some { s.finish head .value with thread := update s.thread k .idle }
    else none

def step (max : Nat) (s : State ι κ) : Act ι κ → Option (State ι κ)
  | .stop S => some { s with stop := fun i => s.stop i || S i }
  | .start i a => startStep s i a
  | .callback i a => callbackStep s i a
  | .thread k a => threadStep max s k a

def system (ι : Type u) (κ : Type v) [DecidableEq ι] [DecidableEq κ] (max init : Nat) :
    System (State ι κ) (Act ι κ) where
  init := { counter := init }
  step := step max

end Coio.AsyncSemaphore
