import Coio.Lib.Transition

namespace Coio.Epoll
open Transition
open Function (update)
set_option autoImplicit true

/-- The directions of I/O, `EPOLLIN` and `EPOLLOUT`. -/
inductive Dir
  | input
  | output
  deriving DecidableEq, Repr

/-- A word of epoll flags: `EPOLLIN`, `EPOLLOUT`, `EPOLLERR`, `EPOLLHUP` and `EPOLLET`. -/
structure Events where
  input : Bool := false
  output : Bool := false
  error : Bool := false
  hangup : Bool := false
  edge : Bool := false
  deriving DecidableEq, Repr

namespace Events

def or (a b : Events) : Events :=
  ⟨a.input || b.input, a.output || b.output, a.error || b.error, a.hangup || b.hangup,
    a.edge || b.edge⟩

def and (a b : Events) : Events :=
  ⟨a.input && b.input, a.output && b.output, a.error && b.error, a.hangup && b.hangup,
    a.edge && b.edge⟩

def not (a : Events) : Events := ⟨!a.input, !a.output, !a.error, !a.hangup, !a.edge⟩

def of : Dir → Events
  | .input => { input := true }
  | .output => { output := true }

def has (a : Events) : Dir → Bool
  | .input => a.input
  | .output => a.output

/-- `event_type | EPOLLERR | EPOLLHUP`. -/
def interest (d : Dir) : Events := (of d).or { error := true, hangup := true }

/-- The events concern an operation of this direction. -/
def covers (a : Events) (d : Dir) : Bool := a.and (interest d) ≠ {}

end Events

/-- The next step of the call that initiates an operation: the I/O attempt of `do_start()`, or
`register_event()` before the lock, at `epoll_ctl()` with the new mask and after it. -/
inductive StartPc (ι : Type u)
  | idle
  | attempt (d : Dir) (op : ι)
  | register (d : Dir) (op : ι)
  | ctl (d : Dir) (op : ι) (ev : Events)
  | arm (d : Dir) (op : ι) (ev : Events)
  deriving DecidableEq, Repr

/-- Who holds an `fd_lock`. -/
inductive Holder
  | register
  | consumer
  deriving DecidableEq, Repr

/-- A `per_fd_data` with the object and the descriptor that it belongs to. `mask` is what epoll has
registered for the descriptor, `pending` says that it is in the ready list of epoll, and `ready d`
that I/O in this direction would not block. -/
structure Entry (ι : Type u) where
  lock : Option Holder := none
  events : Events := {}
  readyEvents : Events := {}
  slot : Dir → Option ι := fun _ => none
  opened : Bool := false
  start : StartPc ι := .idle
  mask : Events := {}
  pending : Bool := false
  ready : Dir → Bool := fun _ => false

/-- What happens to one descriptor apart from the consumer: its object is opened and closed, the
kernel changes its readiness, operations are initiated and cancelled. -/
inductive EntryAct (ι : Type u)
  | open
  | close
  | ready (d : Dir)
  | unready (d : Dir)
  | wake
  | start (d : Dir) (op : ι)
  | attempt (blocked : Bool)
  | register
  | ctl (ok : Bool)
  | arm
  | cancel
  | cancelOp (d : Dir) (op : ι)
  deriving DecidableEq, Repr

/-- The mask for a new operation and for those that are armed. -/
def Entry.newMask (E : Entry ι) (d : Dir) : Events :=
  let ev := (Events.of d).or { edge := true }
  let ev := if (E.slot .input).isSome then ev.or (.of .input) else ev
  if (E.slot .output).isSome then ev.or (.of .output) else ev

/-- `EPOLL_CTL_ADD` rather than `EPOLL_CTL_MOD`. -/
def Entry.ctlAdds (E : Entry ι) : Bool :=
  E.events = {} && !(E.slot .input).isSome && !(E.slot .output).isSome

/-- A direction that is registered and ready. -/
def Entry.alert (E : Entry ι) : Bool :=
  (E.mask.input && E.ready .input) || (E.mask.output && E.ready .output)

/-- The events that `epoll_wait()` reports for a pending descriptor cover its ready directions. -/
def Entry.Reports (E : Entry ι) (e : Events) : Bool :=
  (!(E.mask.input && E.ready .input) || e.covers .input) &&
    (!(E.mask.output && E.ready .output) || e.covers .output)

/-- The steps on one descriptor. -/
def Entry.step [DecidableEq ι] (E : Entry ι) : EntryAct ι → Option (Entry ι)
  -- `new_epoll_data()`
  | .open => if E.opened = false ∧ E.lock = none then
      some { E with opened := true, events := {}, readyEvents := {}, slot := fun _ => none }
    else none
  -- no operation may be outstanding; closing the descriptor unregisters it
  | .close => if E.opened ∧ E.lock = none ∧ E.start = .idle ∧ E.slot .input = none ∧
        E.slot .output = none then
      some { E with opened := false, events := {}, mask := {}, pending := false }
    else none
  | .ready d => some { E with
      ready := update E.ready d true, pending := E.pending || E.mask.has d }
  | .unready d => some { E with ready := update E.ready d false }
  | .wake => if E.mask ≠ {} then some { E with pending := true } else none
  -- one initiating call at a time, one operation in each direction
  | .start d op => if E.opened ∧ E.start = .idle ∧ E.slot d = none then
      some { E with start := .attempt d op }
    else none
  | .attempt blocked => match E.start with
    | .attempt d op => if blocked then
        if E.ready d then none else some { E with start := .register d op }
      else some { E with start := .idle }
    | _ => none
  | .register => match E.start with
    | .register d op => if E.lock = none then
        if E.readyEvents.covers d then some { E with
          readyEvents := E.readyEvents.and (Events.interest d).not, start := .attempt d op }
        else some { E with lock := some .register, start := .ctl d op (E.newMask d) }
      else none
    | _ => none
  | .ctl ok => match E.start with
    | .ctl d op ev => if ev = E.events then some { E with start := .arm d op ev }
      else if ok then
        if E.ctlAdds = decide (E.mask = {}) then
          let E := { E with start := .arm d op ev, mask := ev }
          some { E with pending := E.pending || E.alert }
        else none
      else some { E with start := .idle, lock := none }
    | _ => none
  | .arm => match E.start with
    | .arm d op ev => some { E with
        start := .idle, lock := none, events := ev, slot := update E.slot d (some op) }
    | _ => none
  | .cancel => if E.lock = none then some { E with slot := fun _ => none } else none
  | .cancelOp d op => if E.lock = none then
      if E.slot d = some op then some { E with slot := update E.slot d none } else some E
    else none

/-- The consumer in `do_one()`: in `epoll_wait()`, at the next event of its batch, or with the lock
of a descriptor and the directions that remain to be handled. -/
inductive ConsumerPc (δ : Type u)
  | wait
  | next
  | handle (x : δ) (e : Events) (ds : List Dir)
  deriving DecidableEq, Repr

/-- An `epoll_context` with the entries `δ` of its pool; `batch` holds the events that
`epoll_wait()` has reported and the consumer has not handled. -/
structure State (δ : Type u) (ι : Type v) where
  entry : δ → Entry ι := fun _ => {}
  consumer : ConsumerPc δ := .wait
  batch : List (δ × Events) := []

inductive Act (δ : Type u) (ι : Type v)
  | entry (x : δ) (a : EntryAct ι)
  | fetch (x : δ) (e : Events)
  | waited
  | next
  | perform (blocked : Bool)
  | unlock
  deriving DecidableEq, Repr

/-- `epoll_max_wait_count`. -/
def maxWaitCount : Nat := 128

/-- What the consumer does in one direction: `perform()` of the operation, which stays when it would
block, or a note of the events for the next one. -/
def Entry.handle (E : Entry ι) (e : Events) (d : Dir) (blocked : Bool) : Option (Entry ι) :=
  if e.covers d then
    match E.slot d with
    | none => some { E with readyEvents := E.readyEvents.or (e.and (.interest d)) }
    | some _ => if blocked then if E.ready d then none else some E
      else some { E with slot := update E.slot d none }
  else some E

variable [DecidableEq δ] [DecidableEq ι]

def step (s : State δ ι) : Act δ ι → Option (State δ ι)
  | .entry x a => ((s.entry x).step a).map fun E => { s with entry := update s.entry x E }
  | .fetch x e => if s.consumer = .wait ∧ s.batch.length < maxWaitCount ∧ (s.entry x).pending ∧
        (s.entry x).Reports e then
      some { s with
        entry := update s.entry x { s.entry x with pending := false }
        batch := s.batch ++ [(x, e)] }
    else none
  | .waited => if s.consumer = .wait then some { s with consumer := .next } else none
  | .next => if s.consumer = .next then
      match s.batch with
      | [] => some { s with consumer := .wait }
      | (x, e) :: rest => if (s.entry x).lock = none then some { s with
          entry := update s.entry x { s.entry x with lock := some .consumer }
          consumer := .handle x e [.input, .output], batch := rest }
        else none
    else none
  | .perform blocked => match s.consumer with
    | .handle x e (d :: ds) => ((s.entry x).handle e d blocked).map fun E =>
        { s with entry := update s.entry x E, consumer := .handle x e ds }
    | _ => none
  | .unlock => match s.consumer with
    | .handle x _ [] => some { s with
        entry := update s.entry x { s.entry x with lock := none }, consumer := .next }
    | _ => none

def system (δ : Type u) (ι : Type v) [DecidableEq δ] [DecidableEq ι] :
    System (State δ ι) (Act δ ι) where
  init := {}
  step := step

end Coio.Epoll
