import Coio.Epoll.Model
import Coio.Loop.Model

namespace Coio.Epoll
set_option autoImplicit true

/-- The operation that the initiating call of a descriptor works for, and its direction. -/
def StartPc.call : StartPc ι → Option (Dir × ι)
  | .idle => none
  | .attempt d op | .register d op | .ctl d op _ | .arm d op _ => some (d, op)

/-- The operations in the slots of a descriptor. -/
def Entry.ops (E : Entry ι) : List ι := [Dir.input, Dir.output].filterMap E.slot

end Coio.Epoll

namespace Coio.EpollContext
open Transition Epoll LoopBase
open Function (update)
set_option autoImplicit true

/-- The operations of `sleep_sender`, and those of an I/O object in one direction. -/
inductive Kind (δ : Type u)
  | sleep
  | io (x : δ) (d : Dir)
  deriving DecidableEq, Repr

def Kind.timer : Kind δ → Bool
  | .sleep => true
  | .io _ _ => false

/-- An `epoll_context` with its operations; `result` is what an I/O operation has stored. -/
structure State (δ : Type u) (ι : Type v) (τ : Type w) (ρ : Type x) where
  loop : LoopBase.State ι τ
  epoll : Epoll.State δ ι := {}
  result : ι → Option ρ := fun _ => none

/-- The steps of the operations and timers, those of the descriptors alone, and those in which an
I/O operation and its descriptor meet. -/
inductive Act (δ : Type u) (ι : Type v) (τ : Type w) (ρ : Type x)
  | loop (a : LoopBase.Act ι τ)
  | epoll (a : Epoll.Act δ ι)
  | start (i : ι)
  | complete (i : ι) (r : ρ)
  | attempted (x : δ) (r : ρ)
  | failure (x : δ) (r : ρ)
  | arm (x : δ)
  | perform (r : ρ)
  | cancel (x : δ)
  | cancelOp (i : ι) (t : Taker)
  deriving DecidableEq, Repr

/-- The signals that complete an operation. -/
inductive Completion (ρ : Type u)
  | stopped
  | value
  | result (r : ρ)
  deriving DecidableEq, Repr

/-- `do_start()` of an I/O operation returns `completed` when it has set the result. -/
def State.allows (s : State δ ι τ ρ) : LoopBase.Act ι τ → Bool
  | .op i (.doStartReturns .completed) => (s.result i).isSome
  | _ => true

/-- The steps that need no operation to move. -/
def plain : Epoll.Act δ ι → Bool
  | .entry _ (.start _ _) | .entry _ (.attempt false) | .entry _ (.ctl false) | .entry _ .arm
  | .entry _ .cancel | .entry _ (.cancelOp _ _) | .perform false => false
  | _ => true

variable [DecidableEq δ] [DecidableEq ι] [LinearOrder τ]

def State.initiating (s : State δ ι τ ρ) (i : ι) : Bool :=
  (s.loop.op i).start = .inDoStart ∧ s.loop.place i = .out ∧ (s.result i).isNone

def step (kind : ι → Kind δ) (stoppable : ι → Bool) (s : State δ ι τ ρ) :
    Act δ ι τ ρ → Option (State δ ι τ ρ)
  | .loop a => if s.allows a then
      (LoopBase.step (fun i => (kind i).timer) stoppable s.loop a).map fun l => { s with loop := l }
    else none
  | .epoll a => if plain a then (Epoll.step s.epoll a).map fun e => { s with epoll := e } else none
  | .start i => match kind i with
    | .io x d => if s.initiating i then
        (Epoll.step s.epoll (.entry x (.start d i))).map fun e => { s with epoll := e }
      else none
    | .sleep => none
  -- the descriptor or the buffer decides the result before the first attempt
  | .complete i r => match kind i with
    | .io x d => if s.initiating i ∧ (s.epoll.entry x).start.call ≠ some (d, i) then
        some { s with result := update s.result i (some r) }
      else none
    | .sleep => none
  | .attempted x r => match (s.epoll.entry x).start with
    | .attempt _ i => (Epoll.step s.epoll (.entry x (.attempt false))).map fun e =>
        { s with epoll := e, result := update s.result i (some r) }
    | _ => none
  | .failure x r => match (s.epoll.entry x).start with
    | .ctl _ i ev => if ev ≠ (s.epoll.entry x).events then
        (Epoll.step s.epoll (.entry x (.ctl false))).map fun e =>
          { s with epoll := e, result := update s.result i (some r) }
      else none
    | _ => none
  | .arm x => match (s.epoll.entry x).start with
    | .arm _ i _ => (Epoll.step s.epoll (.entry x .arm)).map fun e =>
        { s with epoll := e, loop := s.loop.put i }
    | _ => none
  | .perform r => match s.epoll.consumer with
    | .handle x e (d :: _) => if e.covers d then ((s.epoll.entry x).slot d).bind fun i =>
          (Epoll.step s.epoll (.perform false)).map fun e => { s with
            epoll := e, loop := s.loop.take .consumer i, result := update s.result i (some r) }
      else none
    | _ => none
  | .cancel x => (Epoll.step s.epoll (.entry x .cancel)).map fun e => { s with
      epoll := e
      loop := (s.epoll.entry x).ops.foldl (fun l i => l.take .ioCancel i) s.loop }
  | .cancelOp i t => match kind i with
    | .io x d => if t.Cancelling (s.loop.op i) then
        (Epoll.step s.epoll (.entry x (.cancelOp d i))).map fun e => { s with
          epoll := e
          loop := if (s.epoll.entry x).slot d = some i then s.loop.take t i else s.loop }
      else none
    | .sleep => none

/-- `do_finish()` of a timer looks at `canceled_`, that of an I/O operation at its result. -/
def doFinish (kind : ι → Kind δ) (s : State δ ι τ ρ) (i : ι) : Completion ρ :=
  match kind i with
  | .sleep => if s.loop.canceled i then .stopped else .value
  | .io _ _ => match s.result i with
    | none => .stopped
    | some r => .result r

def system (kind : ι → Kind δ) (stoppable : ι → Bool) (deadline : ι → τ) :
    System (State δ ι τ ρ) (Act δ ι τ ρ) where
  init := { loop := { timers := { deadline } } }
  step := step kind stoppable

end Coio.EpollContext
