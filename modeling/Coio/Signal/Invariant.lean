import Coio.Signal.Links

namespace Coio.Signal
open Transition
set_option autoImplicit true

def Pc.Locked : Pc ι → Prop
  | .add .test _ | .add .install _ | .add .link _ | .add (.unlock _) _ => True
  | .remove .cut _ | .remove .restore _ | .remove (.unlock _) _ => True
  | _ => False

/-- The waiter that a thread adds and has not linked. -/
def Pc.adding : Pc ι → Option ι
  | .add (.unlock .registered) _ => none
  | .add _ i => some i
  | _ => none

/-- The waiter that a cancellation has removed and not finished. -/
def Pc.taken : Pc ι → Option ι
  | .remove .restore i | .remove (.unlock true) i | .remove .finish i => some i
  | _ => none

/-- What is left of an `add` that began when the signal had fired. -/
def Pc.Late : Pc ι → Prop
  | .add .lock _ | .add .test _ | .add (.unlock .fired) _ => True
  | .add _ _ => False
  | _ => True

def WorkerPc.Locked : WorkerPc ι → Prop
  | .detach | .unlockEmpty | .visit _ | .unlock _ _ => True
  | _ => False

/-- The watchdog has marked the signal as fired and not yet returned. -/
def WorkerPc.Fired : WorkerPc ι → Prop
  | .idle | .reset | .lock | .detach => False
  | _ => True

/-- The waiter that `pop_all` has cut off and not finished. -/
def WorkerPc.held : WorkerPc ι → Option ι
  | .unlock waiter _ | .finish waiter _ => some waiter
  | _ => none

/-- The next waiter of the list that `pop_all` has detached. -/
def WorkerPc.front : WorkerPc ι → Option ι
  | .visit waiter | .relock waiter => some waiter
  | .unlock _ next | .finish _ next => next
  | _ => none

/-- Who has to do with a wait operation. -/
inductive Place (κ : Type u)
  | nobody
  | adding (k : κ)
  | listed
  | held
  | taken (k : κ)
  deriving DecidableEq

/-- The operation is registered and its registration is not finished. -/
def Place.Pending : Place κ → Prop
  | .listed | .held | .taken _ => True
  | _ => False

/-- The registration of a waiter with this number is finished. -/
def State.Finished (s : State ι κ) (i : ι) (g : Nat) : Prop := ∃ r, (i, g, r) ∈ s.finished

structure View (ι : Type u) (κ : Type v) where
  list : List ι := []
  place : ι → Place κ := fun _ => .nobody

/-- The invariant of a waiting list: the links spell a list, whose first node `head` shows until the
signal has fired and `pop_all` afterwards, and each operation is in one place. -/
structure Inv (s : State ι κ) (v : View ι κ) : Prop where
  spells : s.list.Spells v.list
  opened : s.list.head ≠ .null → s.list.head = WaitingList.first v.list ∧ ¬ s.worker.Fired
  closed : s.list.head = .null → s.worker.front = v.list.head?
  mtx_thread : ∀ k, s.mtx = some (.thread k) ↔ (s.pc k).Locked
  mtx_worker : s.mtx = some .worker ↔ s.worker.Locked
  install : ∀ k i, s.pc k = .add .install i → s.list.head = .this
  link : ∀ k i, s.pc k = .add .link i → s.list.head ≠ .null
  restore : ∀ k i, s.pc k = .remove .restore i → s.list.head = .this
  adding : ∀ k i, (s.pc k).adding = some i ↔ v.place i = .adding k
  listed : ∀ i, i ∈ v.list ↔ v.place i = .listed
  held : ∀ i, s.worker.held = some i ↔ v.place i = .held
  taken : ∀ k i, (s.pc k).taken = some i ↔ v.place i = .taken k
  busy : ∀ i, s.busy i = false ↔ v.place i = .nobody
  registered : ∀ i, (v.place i).Pending → 0 < s.registrations i
  finished : ∀ i g r, (i, g, r) ∈ s.finished → 0 < g ∧ g ≤ s.registrations i ∧
    (g = s.registrations i → ¬ (v.place i).Pending)
  unfinished : ∀ i g, 0 < g → g ≤ s.registrations i →
    s.Finished i g ∨ g = s.registrations i ∧ (v.place i).Pending
  once : (s.finished.map fun r => (r.1, r.2.1)).Nodup
  late : ∀ k, s.late k = true → (s.pc k).Late ∧ s.list.head = .null

theorem Inv.init [DecidableEq ι] [DecidableEq κ] : Inv (system ι κ).init {} := by
  constructor
  case spells => exact Linked.Doubly.nil
  case once => exact List.nodup_nil
  case unfinished => exact fun i g h₀ h => absurd h (Nat.not_le.2 h₀)
  all_goals simp [system, WaitingList.first, Pc.Locked, Pc.adding, Pc.taken, WorkerPc.Locked,
    WorkerPc.Fired, WorkerPc.held, Place.Pending]

variable {s : State ι κ} {v : View ι κ}

/-- Nobody is registered after `pop_all` has returned. -/
theorem Inv.list_nil (h : Inv s v) (hw : s.worker = .idle) (hh : s.list.head = .null) :
    v.list = [] := by
  have hfront := h.closed hh
  rw [hw] at hfront
  exact List.head?_eq_none_iff.1 hfront.symm

end Coio.Signal
