import Coio.Operation.Cancel

namespace Coio.Uring
open Transition
open Function (update)
set_option autoImplicit true

/-- A submission entry. That of an operation and the one that cancels it carry the operation's
address, and `gen` tells the operations at one address apart. -/
inductive Entry (ι : Type u)
  | op (i : ι) (gen : Nat)
  | cancel (i : ι) (gen : Nat)
  | cancelFd
  | nop
  deriving DecidableEq, Repr

/-- What a thread prepares under `uring_mtx_`: in `do_start()`, in `do_cancel()`, in
`io_object::cancel()` or in `interrupt()`. -/
inductive Job (ι : Type u)
  | op (i : ι)
  | cancel (i : ι)
  | cancelFd
  | interrupt
  deriving DecidableEq, Repr

def Job.entry (gen : ι → Nat) : Job ι → Entry ι
  | .op i => .op i (gen i)
  | .cancel i => .cancel i (gen i)
  | .cancelFd => .cancelFd
  | .interrupt => .nop

/-- Who holds `uring_mtx_`: the thread in `start()` or in `request_cancel()` of an operation,
another thread, or the consumer in `do_one()`. -/
inductive Party (ι : Type u) (κ : Type v)
  | start (i : ι)
  | cancel (i : ι)
  | thread (k : κ)
  | consumer
  deriving DecidableEq, Repr

/-- The next step of a producer: from `lock` to `unlock` it is in `do_start()`, `do_cancel()`,
`cancel()` or `interrupt()`, with `get` and `resubmit` in `allocate_sqe()` and `load` and `test` in
`post_submit_sqes()`. -/
inductive RingPc (ι : Type u)
  | idle
  | lock (job : Job ι)
  | get (job : Job ι) (retry : Nat)
  | resubmit (job : Job ι) (retry : Nat)
  | load (job : Job ι)
  | test (job : Job ι) (pulling : Bool)
  | submit (job : Job ι)
  | unlock (job : Job ι) (r : StartResult)
  deriving DecidableEq, Repr

/-- The next step of the consumer in `do_one()`. -/
inductive ConsumerPc (ι : Type u)
  | idle
  | work
  | consume
  | finish (i : ι)
  | pull
  | recheck
  | lock
  | submit
  | unlock
  | wait
  | peek
  | clear
  | leave
  | publish
  | publishing (i : ι)
  | consumeLast
  deriving DecidableEq, Repr

/-- The consumer has released `uring_mtx_` since it set `pulling_cqes_`, so that a thread which has
the lock reads this value. Before that, and after it starts to clear the flag, either value can be
read. -/
def ConsumerPc.Pulled : ConsumerPc ι → Bool
  | .wait | .peek | .clear => true
  | _ => false

/-- A context with the operations at the addresses `ι` and the other threads `κ`. `sq` holds the
entries that are obtained but not submitted, `flight` those that the kernel works on and `cq` the
completed ones; `ready` is what the consumer has taken out of `cq` and not yet published. The last
two fields record the submitted entries in their order and number the operations at each address. -/
structure State (ι : Type u) (κ : Type v) where
  op : ι → OperationState.State := fun _ => {}
  stoppable : ι → Bool
  mtx : Option (Party ι κ) := none
  pulling : Bool := false
  pending : Nat := 0
  sq : List (Entry ι) := []
  flight : List (Entry ι) := []
  cq : List (Entry ι) := []
  ring : Party ι κ → RingPc ι := fun _ => .idle
  consumer : ConsumerPc ι := .idle
  infinite : Bool := false
  ready : List (Entry ι) := []
  submitted : List (Entry ι) := []
  gen : ι → Nat := fun _ => 0

inductive Act (ι : Type u) (κ : Type v)
  | reuse (i : ι) (stoppable : Bool)
  | op (i : ι) (a : OperationState.Act)
  | doStart (i : ι)
  | refuse (i : ι)
  | deferredCancel (i : ι)
  | test (i : ι) (spurious : Bool)
  | cancelFd (k : κ)
  | interrupt (k : κ)
  | lock (p : Party ι κ)
  | get (p : Party ι κ)
  | resubmit (p : Party ι κ)
  | load (p : Party ι κ) (value : Bool)
  | testPulling (p : Party ι κ)
  | submit (p : Party ι κ)
  | unlock (p : Party ι κ)
  | kernel (e : Entry ι)
  | doOne (infinite : Bool)
  | work (zero : Bool)
  | dequeue (i : ι)
  | empty
  | finished
  | pull
  | recheck (zero : Bool)
  | consumerLock
  | consumerSubmit
  | consumerUnlock
  | wait (timeout : Bool)
  | fail
  | peek
  | clear
  | leave
  | publish
  | published

/-- The steps of an operation outside of `do_start()`, of `do_cancel()` and of `do_one()`. -/
def free : OperationState.Act → Bool
  | .workStarted | .emplace _ | .emplaced | .published | .arm | .armDeferred | .check | .post
  | .wakeup | .stop | .load | .exchange | .testPrevious | .publishPost | .publishWakeup
  | .workFinished | .reset => true
  | _ => false

def Entry.isOp : Entry ι → Bool
  | .op _ _ => true
  | _ => false

variable [DecidableEq ι] [DecidableEq κ]

def State.opStep (s : State ι κ) (i : ι) (a : OperationState.Act) : Option (State ι κ) :=
  (OperationState.step (s.stoppable i) (s.op i) a).map fun o => { s with op := update s.op i o }

def State.goto (s : State ι κ) (p : Party ι κ) (pc : RingPc ι) : State ι κ :=
  { s with ring := update s.ring p pc }

theorem State.goto_self (s : State ι κ) : (s.goto p pc).ring p = pc := by
  unfold State.goto
  exact Function.update_self ..

theorem State.goto_of_ne (s : State ι κ) (h : q ≠ p) : (s.goto p pc).ring q = s.ring q := by
  unfold State.goto
  exact Function.update_of_ne h ..

/-- `io_uring_submit()` takes every entry that has been obtained. -/
def State.submitSqes (s : State ι κ) : State ι κ :=
  if s.pending = 0 then s
  else { s with
    submitted := s.submitted ++ s.sq
    flight := s.flight ++ s.sq
    sq := []
    pending := s.pending - s.sq.length }

/-- What follows when the entry is obtained and filled in. -/
def Job.obtained : Job ι → RingPc ι
  | .op i => .load (.op i)
  | job => .submit job

/-- The call that took the lock returns. -/
def State.returns (s : State ι κ) (p : Party ι κ) (job : Job ι) (r : StartResult) :
    Option (State ι κ) :=
  match p, job with
  | .start i, .op _ => s.opStep i (.doStartReturns r)
  | .start i, _ => s.opStep i .deferredCancelReturns
  | .cancel i, _ => s.opStep i .requestCancelReturns
  | _, _ => some s

/-- The steps of the context whose queue has `entries` places and whose producers leave less than
`batch` entries to the consumer. -/
def step (entries batch : Nat) (s : State ι κ) : Act ι κ → Option (State ι κ)
  -- an operation that has completed, or was not started, makes room for another one
  | .reuse i stoppable => if (s.op i).start = .workStarted ∨ (s.op i).finish = .doFinish then
      some { s with
        op := update s.op i {}
        stoppable := update s.stoppable i stoppable
        gen := update s.gen i (s.gen i + 1) }
    else none
  | .op i a => if free a then s.opStep i a else none
  | .doStart i => (s.opStep i .doStart).map fun s => s.goto (.start i) (.lock (.op i))
  -- the descriptor is -1, or `try_complete()` is true
  | .refuse i => match s.ring (.start i) with
    | .lock (.op _) => (s.opStep i (.doStartReturns .completed)).map fun s =>
        s.goto (.start i) .idle
    | _ => none
  | .deferredCancel i => (s.opStep i .deferredCancel).map fun s =>
      s.goto (.start i) (.lock (.cancel i))
  | .test i spurious => (s.opStep i (.test spurious)).map fun s =>
      if (s.op i).cancel = .inDoCancel then s.goto (.cancel i) (.lock (.cancel i)) else s
  | .cancelFd k => match s.ring (.thread k) with
    | .idle => some (s.goto (.thread k) (.lock .cancelFd))
    | _ => none
  | .interrupt k => match s.ring (.thread k) with
    | .idle => some (s.goto (.thread k) (.lock .interrupt))
    | _ => none
  | .lock p => match s.ring p with
    | .lock job => if s.mtx = none then some { s.goto p (.get job 3) with mtx := some p } else none
    | _ => none
  -- without an entry, `do_start()` fails and every other call terminates the program
  | .get p => match s.ring p with
    | .get job retry =>
      if s.sq.length < entries then
        some { s.goto p job.obtained with
          sq := s.sq ++ [job.entry s.gen], pending := s.pending + 1 }
      else match retry with
        | retry + 1 => some (s.goto p (.resubmit job retry))
        | 0 => match job with
          | .op i => some (s.goto p (.unlock (.op i) .completed))
          | _ => none
    | _ => none
  | .resubmit p => match s.ring p with
    | .resubmit job retry => some (s.submitSqes.goto p (.get job retry))
    | _ => none
  | .load p value => match s.ring p with
    | .load job =>
      if value = s.pulling ∨ s.consumer.Pulled = false then some (s.goto p (.test job value))
      else none
    | _ => none
  | .testPulling p => match s.ring p with
    | .test job pulling => some <| s.goto p <|
        if pulling = false ∧ s.pending < batch then .unlock job .pending else .submit job
    | _ => none
  | .submit p => match s.ring p with
    | .submit job => some (s.submitSqes.goto p (.unlock job .pending))
    | _ => none
  | .unlock p => match s.ring p with
    | .unlock job r => (s.returns p job r).map fun s => { s.goto p .idle with mtx := none }
    | _ => none
  | .kernel e => if e ∈ s.flight then
      some { s with flight := s.flight.erase e, cq := s.cq ++ [e] }
    else none
  | .doOne infinite => match s.consumer with
    | .idle => some { s with consumer := .work, infinite := infinite }
    | _ => none
  | .work zero => match s.consumer with
    | .work => some { s with consumer := if zero then .idle else .consume }
    | _ => none
  | .dequeue i => match s.consumer with
    | .consume | .consumeLast => (s.opStep i .dequeue).map fun s => { s with consumer := .finish i }
    | _ => none
  -- the op queue is empty
  | .empty => match s.consumer with
    | .consume => some { s with consumer := .pull }
    | .consumeLast => some { s with consumer := .idle }
    | _ => none
  | .finished => match s.consumer with
    | .finish i => if (s.op i).finish = .doFinish then some { s with consumer := .idle } else none
    | _ => none
  | .pull => match s.consumer with
    | .pull => some { s with pulling := true, consumer := .recheck }
    | _ => none
  | .recheck zero => match s.consumer with
    | .recheck => some { s with consumer := if zero then .leave else .lock }
    | _ => none
  | .consumerLock => match s.consumer with
    | .lock => if s.mtx = none then some { s with mtx := some .consumer, consumer := .submit }
      else none
    | _ => none
  | .consumerSubmit => match s.consumer with
    | .submit => some { s.submitSqes with consumer := .unlock }
    | _ => none
  | .consumerUnlock => match s.consumer with
    | .unlock => some { s with mtx := none, consumer := .wait }
    | _ => none
  | .wait timeout => match s.consumer with
    | .wait => if timeout then some { s with consumer := .peek }
      else match s.cq with
        | e :: cq => some { s with
            cq := cq, ready := s.ready ++ [e].filter Entry.isOp, consumer := .peek }
        | [] => none
    | _ => none
  -- the wait fails with another error, which is thrown
  | .fail => match s.consumer with
    | .wait => some { s with consumer := .leave }
    | _ => none
  | .peek => match s.consumer with
    | .peek => if s.cq = [] then some { s with consumer := .clear }
      else some { s with
        cq := s.cq.drop 8, ready := s.ready ++ (s.cq.take 8).filter Entry.isOp }
    | _ => none
  | .clear => match s.consumer with
    | .clear => some { s with pulling := false, consumer := .publish }
    | _ => none
  | .leave => match s.consumer with
    | .leave => some { s with pulling := false, consumer := .idle }
    | _ => none
  | .publish => match s.consumer with
    | .publish => match s.ready with
      | [] => some { s with consumer := if s.infinite then .work else .consumeLast }
      | .op i _ :: ready => (s.opStep i (.publish .backend)).map fun s =>
          { s with ready := ready, consumer := .publishing i }
      | _ :: _ => none
    | _ => none
  | .published => match s.consumer with
    | .publishing i => if (s.op i).publish = .returned then some { s with consumer := .publish }
      else none
    | _ => none

def system (κ : Type v) [DecidableEq κ] (entries batch : Nat) (stoppable : ι → Bool) :
    System (State ι κ) (Act ι κ) where
  init := { stoppable := stoppable }
  step := step entries batch

end Coio.Uring
