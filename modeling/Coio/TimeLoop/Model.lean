import Coio.Loop.Model

namespace Coio.TimeLoop
open Transition LoopBase
open Function (update)
set_option autoImplicit true

/-- The nodes of the op queue: the operations of `sleep_sender` and of `schedule_sender`. -/
inductive Node (ι : Type u) (σ : Type v)
  | timer (i : ι)
  | sched (x : σ)
  deriving DecidableEq, Repr

/-- The next step of `start()` of a `schedule_sender`. -/
inductive SchedPc
  | workStarted
  | enqueue
  | wakeup
  | returned
  deriving DecidableEq, Repr

structure Sched where
  start : SchedPc := .workStarted
  finish : OperationState.FinishPc := .queued
  deriving DecidableEq, Repr

/-- A `work_guard`, or a caller of `work_started()` and `work_finished()`. -/
inductive GuardPc
  | idle
  | held
  | shutdown
  | released
  deriving DecidableEq, Repr

/-- The call of `request_stop()` that makes the request. -/
inductive StopPc
  | idle
  | shutdown
  | returned
  deriving DecidableEq, Repr

/-- The calls that can run on the consumer's own thread, inside the user code that `do_finish()`
runs. -/
inductive Call (ι : Type u) (σ : Type v) (γ : Type w)
  | start (i : ι)
  | requestCancel (i : ι)
  | schedule (x : σ)
  | workFinished (g : γ)
  | requestStop
  deriving DecidableEq, Repr

/-- The next step of the consumer. `infinite` is the argument of `do_one()`. -/
inductive ConsumerPc (ι : Type u) (σ : Type v) (τ : Type w)
  | outside
  | count (infinite : Bool)
  | check (infinite : Bool)
  | consume (infinite : Bool)
  | workFinished (n : Node ι σ) (infinite : Bool)
  | reset (i : ι) (infinite : Bool)
  | user (infinite : Bool)
  | earliest
  | wait (bound : Option τ)
  | takeReadyTimers (infinite : Bool)
  | publishPending (infinite : Bool)
  | publishing (i : ι) (infinite : Bool)
  | poll
  | returned (result infinite : Bool)
  deriving DecidableEq, Repr

/-- A `time_loop` and the calls that run on it. `added` says that `timer_queue::add()` has returned
true for the operation and its thread has not woken the consumer up since; `tokens` is the count of
the semaphore, and `calls` lists the calls that the consumer's thread is inside. -/
structure State (ι : Type u) (σ : Type v) (γ : Type w) (τ : Type x) where
  loop : LoopBase.State ι τ
  sched : σ → Sched := fun _ => {}
  guard : γ → GuardPc := fun _ => .idle
  stop : StopPc := .idle
  added : ι → Bool := fun _ => false
  calls : List (Call ι σ γ) := []
  queue : List (Node ι σ) := []
  workCount : Nat := 0
  tokens : Nat := 0
  consumer : ConsumerPc ι σ τ := .outside

/-- `here` says that the call begins on the consumer's thread. -/
inductive Act (ι : Type u) (σ : Type v) (γ : Type w) (τ : Type x)
  | op (i : ι) (a : OperationState.Act) (here : Bool)
  | add (i : ι)
  | added (i : ι)
  | remove (i : ι) (t : Taker) (fuel : Nat)
  | publish (i : ι) (t : Taker)
  | schedule (x : σ) (here : Bool)
  | enqueue (x : σ)
  | scheduled (x : σ)
  | workStarted (g : γ)
  | workFinished (g : γ) (here : Bool)
  | shutdown (g : γ)
  | requestStop (here : Bool)
  | stopped
  | run (infinite : Bool)
  | acquire
  | timeout
  | consumer (now : τ) (fuel : Nat)

/-- The steps of an operation that are no part of `finish()`; `do_start()` of a timer is always
pending, and who publishes it is a step of its own. -/
def producer : OperationState.Act → Bool
  | .dequeue | .workFinished | .reset | .publish _ | .doStartReturns .completed => false
  | _ => true

def ConsumerPc.inUser : ConsumerPc ι σ τ → Bool
  | .user _ => true
  | _ => false

/-- `wakeup_consumer()`, which the consumer's thread does not need. -/
def State.wakeupConsumer (s : State ι σ γ τ) (here : Bool) : State ι σ γ τ :=
  if here then s else { s with tokens := s.tokens + 1 }

/-- The call has returned. -/
def State.left (s : State ι σ γ τ) : Call ι σ γ → Bool
  | .start i => (s.loop.op i).start.Returned
  | .requestCancel i => (s.loop.op i).cancel = .returned
  | .schedule x => (s.sched x).start = .returned
  | .workFinished g => s.guard g = .released
  | .requestStop => s.stop = .returned

def State.leave (s : State ι σ γ τ) : State ι σ γ τ :=
  { s with calls := s.calls.filter fun c => !s.left c }

def State.enter (s : State ι σ γ τ) (c : Call ι σ γ) (here : Bool) : State ι σ γ τ :=
  if here then { s with calls := c :: s.calls } else s

variable [DecidableEq ι] [DecidableEq σ] [DecidableEq γ]

/-- The thread that runs `publish()` is the consumer's. -/
def State.publisherHere (s : State ι σ γ τ) (i : ι) : Bool :=
  match (s.loop.op i).caller with
  | .backend => true
  | .start | .startCancel => Call.start i ∈ s.calls
  | .requestCancel => Call.requestCancel i ∈ s.calls

/-- What a step of an operation does to the context. -/
def State.effect (s : State ι σ γ τ) (i : ι) (here : Bool) : OperationState.Act → State ι σ γ τ
  | .workStarted => { s.enter (.start i) here with workCount := s.workCount + 1 }
  | .emplace requested => s.enter (.requestCancel i) (requested && Call.start i ∈ s.calls)
  | .stop => s.enter (.requestCancel i) here
  | .post | .publishPost => { s with queue := s.queue ++ [.timer i] }
  | .wakeup => s.wakeupConsumer (Call.start i ∈ s.calls)
  | .publishWakeup => s.wakeupConsumer (s.publisherHere i)
  | _ => s

variable [LinearOrder τ]

/-- The operations with their timer queue: all of them are timers. -/
def State.loopStep (stoppable : ι → Bool) (s : State ι σ γ τ) (a : LoopBase.Act ι τ) :
    Option (State ι σ γ τ) :=
  (LoopBase.step (fun _ => true) stoppable s.loop a).map fun l => { s with loop := l }

/-- `op_queue::dequeue()`, and the call of `finish()` when there is a node. -/
def State.dequeue (stoppable : ι → Bool) (s : State ι σ γ τ) (infinite : Bool)
    (empty : ConsumerPc ι σ τ) : Option (State ι σ γ τ) :=
  match s.queue with
  | [] => some { s with consumer := empty }
  | n :: rest =>
    let s := { s with queue := rest, consumer := .workFinished n infinite }
    match n with
    | .timer i => s.loopStep stoppable (.op i .dequeue)
    | .sched x => some { s with
        sched := update s.sched x { s.sched x with finish := .workFinished } }

/-- The steps of `do_one()` and of the calls it makes. -/
def State.consumerStep (stoppable : ι → Bool) (now : τ) (fuel : Nat) (s : State ι σ γ τ) :
    Option (State ι σ γ τ) :=
  match s.consumer with
  | .count infinite => some { s with
      consumer := if s.workCount = 0 then .returned false infinite else .check infinite }
  | .check infinite => some { s with
      consumer := if s.workCount = 0 then .returned false infinite else .consume infinite }
  | .consume infinite =>
    s.dequeue stoppable infinite (if infinite then .earliest else .takeReadyTimers false)
  -- `wakeup_consumer()` does nothing here when the count becomes zero
  | .workFinished (.timer i) infinite =>
    { s with
      workCount := s.workCount - 1
      consumer := .reset i infinite }.loopStep stoppable (.op i .workFinished)
  | .workFinished (.sched x) infinite => some { s with
      workCount := s.workCount - 1
      sched := update s.sched x { s.sched x with finish := .doFinish }
      consumer := .user infinite }
  | .reset i infinite => { s with consumer := .user infinite }.loopStep stoppable (.op i .reset)
  | .user infinite => if s.calls = [] then some { s with consumer := .returned true infinite }
    else none
  | .earliest => some { s with consumer := .wait s.loop.timers.earliest }
  | .takeReadyTimers infinite =>
    { s with consumer := .publishPending infinite }.loopStep stoppable (.takeReadyTimers now fuel)
  | .publishPending infinite => match s.loop.holding .consumer with
    | [] => some { s with consumer := if infinite then .check true else .poll }
    | i :: _ => { s with consumer := .publishing i infinite }.loopStep stoppable
        (.publish .consumer i)
  | .publishing i infinite => if (s.loop.op i).publish = .returned then
      some { s with consumer := .publishPending infinite }
    else none
  | .poll => s.dequeue stoppable false (.returned false false)
  -- `run()` and `poll()` call `do_one()` again from outside
  | .returned _ _ => some { s with consumer := .outside }
  | .outside | .wait _ => none

def step (stoppable : ι → Bool) (s : State ι σ γ τ) :
    Act ι σ γ τ → Option (State ι σ γ τ)
  | .op i a here => if producer a ∧ (here → s.consumer.inUser) ∧
        (a = .doStartReturns .pending → s.added i = false) then
      ((s.effect i here a).loopStep stoppable (.op i a)).map State.leave
    else none
  | .add i => ({ s with added := update s.added i (s.loop.timers.add i).2 }.loopStep stoppable
      (.add i))
  | .added i => if s.added i then
      some { s.wakeupConsumer (Call.start i ∈ s.calls) with added := update s.added i false }
    else none
  | .remove i t fuel => s.loopStep stoppable (.remove i t fuel)
  | .publish i t => if t = .startCancel ∨ t = .requestCancel then
      s.loopStep stoppable (.publish t i)
    else none
  | .schedule x here => if (s.sched x).start = .workStarted ∧ (here → s.consumer.inUser) then
      some { s.enter (.schedule x) here with
        workCount := s.workCount + 1
        sched := update s.sched x { s.sched x with start := .enqueue } }
    else none
  | .enqueue x => if (s.sched x).start = .enqueue then some { s with
      queue := s.queue ++ [.sched x]
      sched := update s.sched x { s.sched x with start := .wakeup } }
    else none
  | .scheduled x => if (s.sched x).start = .wakeup then
      some { s.wakeupConsumer (Call.schedule x ∈ s.calls) with
        sched := update s.sched x { s.sched x with start := .returned } }.leave
    else none
  | .workStarted g => if s.guard g = .idle then some { s with
      workCount := s.workCount + 1, guard := update s.guard g .held }
    else none
  | .workFinished g here => if s.guard g = .held ∧ (here → s.consumer.inUser) then
      some { s.enter (.workFinished g) here with
        workCount := s.workCount - 1
        guard := update s.guard g (if s.workCount = 1 then .shutdown else .released) }.leave
    else none
  | .shutdown g => if s.guard g = .shutdown then
      some { s.wakeupConsumer (Call.workFinished g ∈ s.calls) with
        guard := update s.guard g .released }.leave
    else none
  | .requestStop here => if s.stop = .idle ∧ (here → s.consumer.inUser) then
      some { s.enter .requestStop here with stop := .shutdown }
    else none
  | .stopped => if s.stop = .shutdown then
      some { s.wakeupConsumer (Call.requestStop ∈ s.calls) with stop := .returned }.leave
    else none
  | .run infinite => match s.consumer with
    | .outside => some { s with consumer := .count infinite }
    | _ => none
  | .acquire => match s.consumer with
    | .wait _ => if 0 < s.tokens then
        some { s with tokens := s.tokens - 1, consumer := .takeReadyTimers true }
      else none
    | _ => none
  | .timeout => match s.consumer with
    | .wait (some _) => some { s with consumer := .takeReadyTimers true }
    | _ => none
  | .consumer now fuel => s.consumerStep stoppable now fuel

def system (stoppable : ι → Bool) (deadline : ι → τ) :
    System (State ι σ γ τ) (Act ι σ γ τ) where
  init := { loop := { timers := { deadline } } }
  step := step stoppable

end Coio.TimeLoop
