import Coio.Lib.Linked
import Coio.Lib.Transition

namespace Coio.Signal
open Transition
open Function (update)
set_option autoImplicit true

/-- `head` of a waiting list: the list itself when it is empty, the first waiter, or null once the
signal has fired. -/
inductive Head (ι : Type u)
  | this
  | node (i : ι)
  | null
  deriving DecidableEq, Repr

def Head.node? : Head ι → Option ι
  | .node i => some i
  | _ => none

/-- A waiting list with the links of its nodes. -/
structure WaitingList (ι : Type u) where
  head : Head ι := .this
  prev : ι → Option ι := fun _ => none
  next : ι → Option ι := fun _ => none

namespace WaitingList

variable [DecidableEq ι]

/-- The end of `add`: the node becomes the first one. -/
def link (w : WaitingList ι) (node : ι) : WaitingList ι :=
  let old := w.head.node?
  let w := { w with prev := update w.prev node none, next := update w.next node old }
  let w := match old with
    | some n => { w with prev := update w.prev n (some node) }
    | none => w
  { w with head := Head.node node }

/-- The node leaves the list if it is in it, which only its `prev_` and `head` tell. -/
def remove (w : WaitingList ι) (node : ι) : WaitingList ι × Bool :=
  let cut := match w.prev node with
    | some p => some { w with next := update w.next p (w.next node) }
    | none => if w.head = Head.node node then
        some { w with head := (w.next node).elim Head.this Head.node }
      else none
  match cut with
  | none => (w, false)
  | some w =>
    let w := match w.next node with
      | some n => { w with prev := update w.prev n (w.prev node) }
      | none => w
    ({ w with prev := update w.prev node none, next := update w.next node none }, true)

/-- One turn of the loop of `pop_all`: the next waiter becomes the first one of the rest. -/
def visit (w : WaitingList ι) (waiter : ι) : WaitingList ι × Option ι :=
  let next := w.next waiter
  let w := match next with
    | some n => { w with prev := update w.prev n none }
    | none => w
  ({ w with next := update w.next waiter none }, next)

end WaitingList

/-- What `add` returns: `0`, the number of the signal, or a negated `errno`. -/
inductive AddResult
  | registered
  | fired
  | failed
  deriving DecidableEq, Repr

/-- The result that a registered waiter is finished with: the number of the signal, or
`-ECANCELED`. -/
inductive Result
  | signal
  | canceled
  deriving DecidableEq, Repr

/-- The next step of `add`. -/
inductive AddPc
  | lock
  | test
  | install
  | link
  | unlock (r : AddResult)
  deriving DecidableEq, Repr

/-- The next step of `unregister_waiter`. -/
inductive RemovePc
  | lock
  | cut
  | restore
  | unlock (found : Bool)
  | finish
  deriving DecidableEq, Repr

inductive Pc (ι : Type u)
  | idle
  | add (pc : AddPc) (i : ι)
  | remove (pc : RemovePc) (i : ι)
  deriving DecidableEq, Repr

/-- The next step of `dispatch_signal`, which only the watchdog calls. -/
inductive WorkerPc (ι : Type u)
  | idle
  | reset
  | lock
  | detach
  | unlockEmpty
  | visit (waiter : ι)
  | unlock (waiter : ι) (next : Option ι)
  | finish (waiter : ι) (next : Option ι)
  | relock (waiter : ι)
  deriving DecidableEq, Repr

inductive Party (κ : Type u)
  | thread (k : κ)
  | worker
  deriving DecidableEq, Repr

/-- The waiting list of one signal, with the wait operations at the addresses `ι` and the threads
`κ` that start and cancel them. `installed` says that the handler of the library is the disposition
of the signal, and `pipe` counts the deliveries that the watchdog has not read. The fields from
`busy` on record what has happened: the operations that have not completed, how often each address
was registered, the results of the registrations, what `add` has returned at each address, and the
threads whose `add` began when the signal had fired. -/
structure State (ι : Type u) (κ : Type v) where
  list : WaitingList ι := {}
  mtx : Option (Party κ) := none
  installed : Bool := false
  pipe : Nat := 0
  pc : κ → Pc ι := fun _ => .idle
  worker : WorkerPc ι := .idle
  busy : ι → Bool := fun _ => false
  registrations : ι → Nat := fun _ => 0
  finished : List (ι × Nat × Result) := []
  returned : List (ι × AddResult) := []
  late : κ → Bool := fun _ => false

inductive AddAct
  | start
  | lock
  | test
  | install (success : Bool)
  | link
  | unlock (r : AddResult)
  deriving DecidableEq, Repr

inductive RemoveAct
  | cancel
  | lock
  | cut
  | restore (success : Bool)
  | unlock (found : Bool)
  | finish
  deriving DecidableEq, Repr

inductive WorkerAct (ι : Type u)
  | dispatch
  | reset (success : Bool)
  | lock
  | detach
  | unlockEmpty
  | visit (waiter : ι)
  | unlock (waiter : ι) (next : Option ι)
  | finish (waiter : ι) (next : Option ι)
  | relock (waiter : ι)
  deriving DecidableEq, Repr

inductive Act (ι : Type u) (κ : Type v)
  | deliver (written : Bool)
  | add (k : κ) (i : ι) (a : AddAct)
  | remove (k : κ) (i : ι) (a : RemoveAct)
  | worker (a : WorkerAct ι)
  deriving DecidableEq, Repr

variable [DecidableEq ι]

/-- `finish_` of a waiter. -/
def State.finish (s : State ι κ) (i : ι) (r : Result) : State ι κ :=
  { s with
    busy := update s.busy i false, finished := s.finished ++ [(i, s.registrations i, r)] }

variable [DecidableEq κ]

def State.goto (s : State ι κ) (k : κ) (pc : Pc ι) : State ι κ :=
  { s with pc := update s.pc k pc }

/-- The start of a wait with a new node, and the steps of `add`. -/
def addStep (s : State ι κ) (k : κ) (i : ι) : AddAct → Option (State ι κ)
  | .start => if s.pc k = .idle ∧ s.busy i = false then
      some { s.goto k (.add .lock i) with
        busy := update s.busy i true, late := update s.late k (s.list.head = .null) }
    else none
  | .lock => if s.pc k = .add .lock i ∧ s.mtx = none then
      some { s.goto k (.add .test i) with mtx := some (.thread k) }
    else none
  | .test => if s.pc k = .add .test i then
      some (s.goto k (.add (match s.list.head with
        | .null => .unlock .fired
        | .this => .install
        | .node _ => .link) i))
    else none
  | .install success => if s.pc k = .add .install i then
      if success then some { s.goto k (.add .link i) with installed := true }
      else some (s.goto k (.add (.unlock .failed) i))
    else none
  | .link => if s.pc k = .add .link i then
      some { s.goto k (.add (.unlock .registered) i) with
        list := s.list.link i, registrations := update s.registrations i (s.registrations i + 1) }
    else none
  -- a wait that is not registered completes with the result of `add`
  | .unlock r => if s.pc k = .add (.unlock r) i then
      some { s.goto k .idle with
        mtx := none, returned := s.returned ++ [(i, r)]
        busy := if r = .registered then s.busy else update s.busy i false }
    else none

/-- The steps of `unregister_waiter`, which a stop request or the end of `start()` calls. -/
def removeStep (s : State ι κ) (k : κ) (i : ι) : RemoveAct → Option (State ι κ)
  | .cancel => if s.pc k = .idle ∧ s.busy i then some (s.goto k (.remove .lock i)) else none
  | .lock => if s.pc k = .remove .lock i ∧ s.mtx = none then
      some { s.goto k (.remove .cut i) with mtx := some (.thread k) }
    else none
  | .cut => if s.pc k = .remove .cut i then
      match s.list.remove i with
      | (list, true) => some { s.goto k (.remove
          (if list.head = .this then .restore else .unlock true) i) with list := list }
      | (_, false) => some (s.goto k (.remove (.unlock false) i))
    else none
  | .restore success => if s.pc k = .remove .restore i then
      some { s.goto k (.remove (.unlock true) i) with installed := !success && s.installed }
    else none
  | .unlock found => if s.pc k = .remove (.unlock found) i then
      some { s.goto k (if found then .remove .finish i else .idle) with mtx := none }
    else none
  | .finish => if s.pc k = .remove .finish i then
      some ((s.finish i .canceled).goto k .idle)
    else none

/-- The steps of the watchdog. -/
def workerStep (s : State ι κ) : WorkerAct ι → Option (State ι κ)
  | .dispatch => if s.worker = .idle ∧ 0 < s.pipe then
      some { s with worker := .reset, pipe := s.pipe - 1 }
    else none
  | .reset success => if s.worker = .reset then
      some { s with worker := .lock, installed := !success && s.installed }
    else none
  | .lock => if s.worker = .lock ∧ s.mtx = none then
      some { s with worker := .detach, mtx := some .worker }
    else none
  | .detach => if s.worker = .detach then
      some { s with
        worker := s.list.head.node?.elim WorkerPc.unlockEmpty WorkerPc.visit
        list := { s.list with head := .null } }
    else none
  | .unlockEmpty => if s.worker = .unlockEmpty then
      some { s with worker := .idle, mtx := none }
    else none
  | .visit waiter => if s.worker = .visit waiter then
      let (list, next) := s.list.visit waiter
      some { s with worker := .unlock waiter next, list := list }
    else none
  | .unlock waiter next => if s.worker = .unlock waiter next then
      some { s with worker := .finish waiter next, mtx := none }
    else none
  | .finish waiter next => if s.worker = .finish waiter next then
      some { s.finish waiter .signal with worker := next.elim WorkerPc.idle WorkerPc.relock }
    else none
  | .relock waiter => if s.worker = .relock waiter ∧ s.mtx = none then
      some { s with worker := .visit waiter, mtx := some .worker }
    else none

def step (s : State ι κ) : Act ι κ → Option (State ι κ)
  -- the handler writes into the pipe unless that is full
  | .deliver written => if s.installed then
      some { s with pipe := s.pipe + written.toNat }
    else none
  | .add k i a => addStep s k i a
  | .remove k i a => removeStep s k i a
  | .worker a => workerStep s a

def system (ι : Type u) (κ : Type v) [DecidableEq ι] [DecidableEq κ] :
    System (State ι κ) (Act ι κ) where
  init := {}
  step := step

end Coio.Signal
