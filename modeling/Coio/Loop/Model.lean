import Coio.Operation.Model
import Coio.TimerQueue.Refinement

namespace Coio.LoopBase
open Transition
open Function (update)
set_option autoImplicit true

/-- Who takes a pending operation out of the timer heap or of a slot: `do_one()`, a call of
`io_object::cancel()`, or `do_cancel()` inside `start()` or `request_cancel()`. -/
inductive Taker
  | consumer
  | ioCancel
  | startCancel
  | requestCancel
  deriving DecidableEq, Repr

/-- Where the taker calls `publish()`. -/
def Taker.caller : Taker → OperationState.Caller
  | .consumer | .ioCancel => .backend
  | .startCancel => .startCancel
  | .requestCancel => .requestCancel

def Taker.cancels : Taker → Bool
  | .consumer => false
  | _ => true

/-- What has become of an operation: not yet in its heap or slot, inside, taken, published. -/
inductive Place
  | out
  | inside
  | taken (t : Taker)
  | published (t : Taker)
  deriving DecidableEq, Repr

/-- The operations of a context with their timer queue. `holding` lists the operations that a taker
has taken and not published, the two lists of ready operations of `do_one()` among them. The fields
from `place` on record what has happened. -/
structure State (ι : Type u) (τ : Type v) where
  timers : TimerQueue ι τ
  op : ι → OperationState.State := fun _ => {}
  canceled : ι → Bool := fun _ => false
  holding : Taker → List ι := fun _ => []
  place : ι → Place := fun _ => .out
  takes : ι → Nat := fun _ => 0
  publishes : ι → Nat := fun _ => 0

inductive Act (ι : Type u) (τ : Type v)
  | op (i : ι) (a : OperationState.Act)
  | add (i : ι)
  | remove (i : ι) (t : Taker) (fuel : Nat)
  | takeReadyTimers (now : τ) (fuel : Nat)
  | publish (t : Taker) (i : ι)
  deriving DecidableEq, Repr

variable [DecidableEq ι]

/-- The steps of an operation by itself. `do_start()` returns `pending` when it has put the
operation into its heap or slot, and `do_cancel()` when it has published what it has taken. -/
def State.allows (s : State ι τ) (i : ι) : OperationState.Act → Bool
  | .publish _ => false
  | .doStartReturns .pending => s.place i ≠ .out
  | .doStartReturns .completed => s.place i = .out
  | .deferredCancelReturns => i ∉ s.holding .startCancel
  | .requestCancelReturns => i ∉ s.holding .requestCancel
  | _ => true

/-- The operation enters its heap or slot. -/
def State.put (s : State ι τ) (i : ι) : State ι τ := { s with place := update s.place i .inside }

/-- The taker has taken the operation out of its heap or slot. -/
def State.take (s : State ι τ) (t : Taker) (i : ι) : State ι τ :=
  { s with
    holding := update s.holding t (s.holding t ++ [i])
    place := update s.place i (.taken t)
    takes := update s.takes i (s.takes i + 1) }

/-- The operation is inside the `do_cancel()` of this taker. -/
def Taker.Cancelling (o : OperationState.State) : Taker → Bool
  | .startCancel => o.start = .inDoCancel
  | .requestCancel => o.cancel = .inDoCancel
  | _ => false

def State.opStep (stoppable : ι → Bool) (s : State ι τ) (i : ι) (a : OperationState.Act) :
    Option (State ι τ) :=
  (OperationState.step (stoppable i) (s.op i) a).map fun o => { s with op := update s.op i o }

variable [LinearOrder τ]

/-- The steps that timers and other operations share. `timer` tells the operations of
`sleep_sender`. -/
def step (timer stoppable : ι → Bool) (s : State ι τ) : Act ι τ → Option (State ι τ)
  | .op i a => if s.allows i a then s.opStep stoppable i a else none
  | .add i => if timer i ∧ (s.op i).start = .inDoStart ∧ s.place i = .out then
      some { s.put i with timers := (s.timers.add i).1 }
    else none
  -- `do_cancel()` of a timer
  | .remove i t fuel => if timer i ∧ t.Cancelling (s.op i) then
      (s.timers.remove fuel i).map fun (timers, removed) =>
        let s := { s with timers := timers }
        if removed then { s.take t i with canceled := update s.canceled i true } else s
    else none
  | .takeReadyTimers now fuel => (s.timers.takeReadyTimers fuel now fuel []).map
      fun (timers, ready) => ready.foldl (fun s i => s.take .consumer i) { s with timers := timers }
  | .publish t i => if i ∈ s.holding t then
      (s.opStep stoppable i (.publish t.caller)).map fun s => { s with
        holding := update s.holding t ((s.holding t).erase i)
        place := update s.place i (.published t)
        publishes := update s.publishes i (s.publishes i + 1) }
    else none

end Coio.LoopBase
