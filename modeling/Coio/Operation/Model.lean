import Coio.Lib.Transition

namespace Coio
open Transition
set_option autoImplicit true

inductive OperationPhase
  | starting
  | armed
  | cancelDeferred
  | completed
  deriving DecidableEq, Repr

inductive StartResult
  | completed
  | pending
  deriving DecidableEq, Repr

namespace OperationState

/-- The next step of the thread that runs `start()`. The two last values say how it returned. -/
inductive StartPc
  | workStarted
  | emplace
  | callback
  | doStart
  | inDoStart
  | publishing
  | arm
  | deferredCancel
  | inDoCancel
  | armDeferred
  | check (expected : OperationPhase)
  | post
  | wakeup
  | armed
  | posted
  deriving DecidableEq, Repr

/-- The next step of the thread that runs `request_cancel()`. -/
inductive CancelPc
  | idle
  | load
  | test (phase : OperationPhase)
  | inDoCancel
  | returned
  deriving DecidableEq, Repr

/-- The next step of the thread that runs `publish()`. -/
inductive PublishPc
  | idle
  | exchange
  | test (previous : OperationPhase)
  | post
  | wakeup
  | returned
  deriving DecidableEq, Repr

/-- Where `publish()` is called: by a backend thread, by `start()` itself after a completed
`do_start()`, or inside the `do_cancel()` of `start()` or of `request_cancel()`. -/
inductive Caller
  | backend
  | start
  | startCancel
  | requestCancel
  deriving DecidableEq, Repr

/-- The next step of the consumer in `finish()`. -/
inductive FinishPc
  | queued
  | workFinished
  | reset
  | doFinish
  deriving DecidableEq, Repr

/-- One operation and the calls that run on it. `posts` counts its insertions into the op queue and
`asserts` says that no assertion has failed; the last four fields only record what happened: `found`
is the phase that the first compare-exchange of `start()` found, and `seen` the one that the last
load or compare-exchange of `request_cancel()` did. -/
structure State where
  phase : OperationPhase := .starting
  start : StartPc := .workStarted
  cancel : CancelPc := .idle
  publish : PublishPc := .idle
  finish : FinishPc := .queued
  workCount : Nat := 0
  posts : Nat := 0
  asserts : Bool := true
  caller : Caller := .backend
  result : Option StartResult := none
  found : Option OperationPhase := none
  seen : Option OperationPhase := none
  cancels : Nat := 0
  deriving DecidableEq, Repr

inductive Act
  | workStarted
  | emplace (requested : Bool)
  | emplaced
  | doStart
  | doStartReturns (r : StartResult)
  | published
  | arm
  | deferredCancel
  | deferredCancelReturns
  | armDeferred
  | check
  | post
  | wakeup
  | stop
  | load
  | test (spurious : Bool)
  | requestCancelReturns
  | publish (c : Caller)
  | exchange
  | testPrevious
  | publishPost
  | publishWakeup
  | dequeue
  | workFinished
  | reset
  deriving DecidableEq, Repr

/-- The rest of `start()` touches the operation state; the wakeup only uses the context. -/
def StartPc.Touches : StartPc → Bool
  | .wakeup | .armed | .posted => false
  | _ => true

def StartPc.Returned : StartPc → Bool
  | .armed | .posted => true
  | _ => false

/-- After the exchange `publish()` uses the operation state only to post it. -/
def PublishPc.Touches : PublishPc → Bool
  | .exchange | .post => true
  | .test previous => previous = .armed
  | _ => false

/-- `publish()` has exchanged the phase. -/
def PublishPc.Exchanged : PublishPc → Bool
  | .idle | .exchange => false
  | _ => true

def CancelPc.Running : CancelPc → Bool
  | .idle | .returned => false
  | _ => true

/-- The backend holds the operation from the call of `do_start()` on and may call `publish()` once,
but not when `do_start()` returned `completed`. -/
def State.MayPublish (s : State) : Caller → Bool
  | .backend => s.start ≠ .workStarted && s.start ≠ .emplace && s.start ≠ .callback &&
      s.start ≠ .doStart && s.result ≠ some .completed
  | .start => false
  | .startCancel => s.start = .inDoCancel
  | .requestCancel => s.cancel = .inDoCancel

/-- A `do_cancel()` of this caller is not in the middle of a `publish()`. -/
def State.MayReturn (s : State) (c : Caller) : Bool :=
  s.caller ≠ c || s.publish = .idle || s.publish = .returned

def step (stoppable : Bool) (s : State) : Act → Option State
  | .workStarted =>
    if s.start = .workStarted then
      some { s with
        workCount := s.workCount + 1
        start := if stoppable then .emplace else .doStart }
    else none
  | .emplace requested =>
    -- the constructor of the callback calls `request_cancel()` if stop was requested before
    if s.start = .emplace then
      if requested then some { s with start := .callback, cancel := .load }
      else some { s with start := .doStart }
    else none
  | .emplaced =>
    if s.start = .callback ∧ s.cancel = .returned then some { s with start := .doStart } else none
  | .doStart => if s.start = .doStart then some { s with start := .inDoStart } else none
  | .doStartReturns .completed =>
    if s.start = .inDoStart ∧ s.publish = .idle then
      some { s with
        start := .publishing, publish := .exchange, caller := .start, result := some .completed }
    else none
  | .doStartReturns .pending =>
    if s.start = .inDoStart then some { s with start := .arm, result := some .pending } else none
  | .published =>
    if s.start = .publishing ∧ s.publish = .returned then some { s with start := .post } else none
  | .arm =>
    if s.start = .arm then
      if s.phase = .starting then
        some { s with phase := .armed, start := .armed, found := some .starting }
      else if s.phase = .cancelDeferred then
        some { s with start := .deferredCancel, found := some .cancelDeferred }
      else some { s with start := .check s.phase, found := some s.phase }
    else none
  | .deferredCancel =>
    if s.start = .deferredCancel then
      some { s with start := .inDoCancel, cancels := s.cancels + 1 }
    else none
  | .deferredCancelReturns =>
    if s.start = .inDoCancel ∧ s.MayReturn .startCancel then some { s with start := .armDeferred }
    else none
  | .armDeferred =>
    if s.start = .armDeferred then
      if s.phase = .cancelDeferred then some { s with phase := .armed, start := .armed }
      else some { s with start := .check s.phase }
    else none
  | .check =>
    match s.start with
    | .check expected =>
      some { s with start := .post, asserts := s.asserts && expected = .completed }
    | _ => none
  | .post =>
    if s.start = .post then some { s with start := .wakeup, posts := s.posts + 1 } else none
  | .wakeup => if s.start = .wakeup then some { s with start := .posted } else none
  | .stop =>
    if stoppable ∧ s.cancel = .idle ∧ s.start ≠ .workStarted ∧ s.start ≠ .emplace ∧
        s.finish ≠ .doFinish then
      some { s with cancel := .load }
    else none
  | .load =>
    if s.cancel = .load then some { s with cancel := .test s.phase, seen := some s.phase } else none
  | .test spurious =>
    match s.cancel with
    | .test .starting =>
      if s.phase = .starting ∧ ¬spurious then
        some { s with phase := .cancelDeferred, cancel := .returned }
      else some { s with cancel := .test s.phase, seen := some s.phase }
    | .test .armed => some { s with cancel := .inDoCancel, cancels := s.cancels + 1 }
    | .test _ => some { s with cancel := .returned }
    | _ => none
  | .requestCancelReturns =>
    if s.cancel = .inDoCancel ∧ s.MayReturn .requestCancel then some { s with cancel := .returned }
    else none
  | .publish c =>
    if s.publish = .idle ∧ s.MayPublish c then some { s with publish := .exchange, caller := c }
    else none
  | .exchange =>
    if s.publish = .exchange then
      some { s with publish := .test s.phase, phase := .completed }
    else none
  | .testPrevious =>
    match s.publish with
    | .test previous =>
      some { s with
        asserts := s.asserts && previous ≠ .completed
        publish := if previous = .armed then .post else .returned }
    | _ => none
  | .publishPost =>
    if s.publish = .post then some { s with publish := .wakeup, posts := s.posts + 1 } else none
  | .publishWakeup => if s.publish = .wakeup then some { s with publish := .returned } else none
  | .dequeue =>
    if s.finish = .queued ∧ 0 < s.posts then some { s with finish := .workFinished } else none
  | .workFinished =>
    if s.finish = .workFinished then
      some { s with finish := .reset, workCount := s.workCount - 1 }
    else none
  | .reset =>
    -- resetting the stop callback waits for a running `request_cancel()`
    if s.finish = .reset ∧ ¬s.cancel.Running then some { s with finish := .doFinish } else none

/-- One operation whose receiver's stop token can be stopped or not. -/
def system (stoppable : Bool) : System State Act where
  init := {}
  step := step stoppable

end OperationState
end Coio
