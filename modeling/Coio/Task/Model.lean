import Coio.Lib.Machine
import Mathlib.Logic.Function.Basic

namespace Coio.Task
open Function (update)
set_option autoImplicit true

/-- The type of a promise: `task_promise` for its value, allocator and scheduler types, or another
type that has `unhandled_stopped()`. -/
inductive Promise (T : Type u) (A : Type v) (S : Type w) (F : Type x)
  | task (value_type : T) (allocator_type : A) (scheduler_type : S)
  | foreign (type : F)
  deriving DecidableEq, Repr

/-- How the innermost body ends, and what the outer receiver gets. -/
inductive Completion (α : Type u) (ε : Type v)
  | value (a : α)
  | error (e : ε)
  | stopped
  deriving DecidableEq, Repr

def Completion.ofResult : Except ε α → Completion α ε
  | .ok a => .value a
  | .error e => .error e

/-- A chain of coroutines `0`, ..., `depth`, each awaiting the next one. Those after the first are
tasks. `after k` is the rest of the body of `k`, from what the `co_await` expression returns or
throws to what the body does. -/
structure Chain (T : Type u) (A : Type v) (S : Type w) (F : Type x) (α : Type y) (ε : Type z) where
  depth : Nat
  outermost : Promise T A S F
  inner : Nat → T × A × S
  after : Nat → Except ε α → Except ε α
  ending : Completion α ε

def Chain.promise (c : Chain T A S F α ε) : Nat → Promise T A S F
  | 0 => c.outermost
  | k + 1 => .task (c.inner k).1 (c.inner k).2.1 (c.inner k).2.2

/-- The object that `state_` of a promise points to. -/
inductive TaskState (P : Type u)
  | task_operation
  | task_awaiter (promise rcvr_promise : P) (continuation_ : Nat)

/-- What runs next. -/
inductive Control (P : Type u)
  | start (k : Nat)
  | complete (k : Nat)
  | resume (k : Nat)
  | unhandled_stopped (k : Nat) (type : P)
  | done
  | undefined
  deriving DecidableEq

/-- `result_ k` is the variant in the state that `state_ k` points to. The last fields record the
completions of the outer receiver, the coroutines resumed by `complete()`, and the calls of
`unhandled_stopped()`, each with the type through which the promise is accessed. -/
structure State (P : Type u) (α : Type v) (ε : Type w) where
  control : Control P
  state_ : Nat → Option (TaskState P) := fun _ => none
  result_ : Nat → Option (Except ε α) := fun _ => none
  completions : List (Completion α ε) := []
  resumed : List Nat := []
  stops : List (Nat × P) := []

/-- The outer receiver is completed, and nothing is resumed. -/
def State.receive (s : State P α ε) (c : Completion α ε) : State P α ε :=
  { s with completions := s.completions ++ [c], control := .done }

/-- `state_->complete()` -/
def State.complete (s : State P α ε) (k : Nat) : State P α ε :=
  match s.state_ k with
  | none => { s with control := .undefined }
  | some .task_operation =>
    match s.result_ k with
    | none => s.receive .stopped
    | some r => s.receive (.ofResult r)
  | some (.task_awaiter promise _ continuation_) =>
    match s.result_ k with
    | none => { s with control := .unhandled_stopped continuation_ promise }
    | some _ =>
      { s with control := .resume continuation_, resumed := s.resumed ++ [continuation_] }

namespace Chain

variable (c : Chain T A S F α ε)

/-- `start()` of the operation of the outermost task, or the first resumption of another coroutine,
which is not awaited by a task. -/
def initial : State (Promise T A S F) α ε where
  control := .start 0
  state_ := match c.outermost with
    | .task .. => update (fun _ => none) 0 (some .task_operation)
    | .foreign _ => fun _ => none

/-- The body of `k` returns or throws, and so the coroutine gets to its final suspend point. A
foreign promise hands the result to the receiver. -/
def finish (s : State (Promise T A S F) α ε) (k : Nat) (r : Except ε α) :
    State (Promise T A S F) α ε :=
  match c.promise k with
  | .task .. => { s with result_ := update s.result_ k (some r), control := .complete k }
  | .foreign _ => s.receive (.ofResult r)

/-- The body of `k` up to its `co_await` of the next task, whose awaiter it makes. -/
def start (s : State (Promise T A S F) α ε) (k : Nat) : State (Promise T A S F) α ε :=
  if k < c.depth then
    { s with
      state_ := update s.state_ (k + 1) (some (.task_awaiter (c.promise (k + 1)) (c.promise k) k))
      control := .start (k + 1) }
  else match c.ending with
    | .value a => c.finish s k (.ok a)
    | .error e => c.finish s k (.error e)
    -- an operation awaited by the innermost body is stopped
    | .stopped => { s with control := .unhandled_stopped k (c.promise k) }

/-- `await_resume()` of the awaiter of the next task, and the rest of the body. -/
def resume (s : State (Promise T A S F) α ε) (k : Nat) : State (Promise T A S F) α ε :=
  match s.result_ (k + 1) with
  | none => { s with control := .undefined }
  | some r => c.finish s k (c.after k r)

variable [DecidableEq T] [DecidableEq A] [DecidableEq S] [DecidableEq F]

/-- `unhandled_stopped()` on the promise of `k`, accessed as a promise of the type `type`. Access at
a type that is not that of the promise is undefined. -/
def unhandled_stopped (s : State (Promise T A S F) α ε) (k : Nat) (type : Promise T A S F) :
    State (Promise T A S F) α ε :=
  let s := { s with stops := s.stops ++ [(k, type)] }
  if type = c.promise k then
    match type with
    | .task .. => { s with control := .complete k }
    | .foreign _ => s.receive .stopped
  else { s with control := .undefined }

def step (s : State (Promise T A S F) α ε) : State (Promise T A S F) α ε :=
  match s.control with
  | .start k => c.start s k
  | .complete k => s.complete k
  | .resume k => c.resume s k
  | .unhandled_stopped k type => c.unhandled_stopped s k type
  | .done | .undefined => s

end Chain

end Coio.Task
