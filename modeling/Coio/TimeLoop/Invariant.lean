import Coio.TimeLoop.Model
import Coio.Loop.Publish
import Coio.Lib.Tally

namespace Coio.TimeLoop
open Transition LoopBase Tally
set_option autoImplicit true

@[simp] theorem enter_consumer (s : State ι σ γ τ) (c : Call ι σ γ) (here : Bool) :
    (s.enter c here).consumer = s.consumer := by
  cases here <;> rfl

@[simp] theorem wakeupConsumer_consumer (s : State ι σ γ τ) (here : Bool) :
    (s.wakeupConsumer here).consumer = s.consumer := by
  cases here <;> rfl

theorem wakeupConsumer_eq (s : State ι σ γ τ) (here : Bool) :
    s.wakeupConsumer here = { s with tokens := (s.wakeupConsumer here).tokens } := by
  cases here <;> rfl

/-- A thread is inside `publish()`. -/
def Publishing : OperationState.PublishPc → Prop
  | .idle | .returned => False
  | _ => True

/-- The operation has been counted and not yet discounted. -/
def opWork (o : OperationState.State) : Nat :=
  if o.start ≠ .workStarted ∧ (o.finish = .queued ∨ o.finish = .workFinished) then 1 else 0

def Sched.work (x : Sched) : Nat :=
  if x.start ≠ .workStarted ∧ (x.finish = .queued ∨ x.finish = .workFinished) then 1 else 0

def GuardPc.work : GuardPc → Nat
  | .held => 1
  | _ => 0

/-- What a step of an operation outside `finish()` leaves as it was. -/
structure OpFrame (a : OperationState.Act) (o o' : OperationState.State) : Prop where
  finish : o'.finish = o.finish
  posts : o'.posts = o.posts + if a = .post ∨ a = .publishPost then 1 else 0
  started : o'.start = .workStarted ↔ o.start = .workStarted ∧ a ≠ .workStarted
  wakeup : o.start = .wakeup → a ≠ .wakeup → o'.start = .wakeup
  posted : a = .post → o'.start = .wakeup
  unposted : o'.start = .wakeup → o.start = .wakeup ∨ a = .post
  publishWakeup : o.publish = .wakeup → a ≠ .publishWakeup → o'.publish = .wakeup
  published : a = .publishPost → o'.publish = .wakeup
  unpublished : o'.publish = .wakeup → o.publish = .wakeup ∨ a = .publishPost
  publishing : Publishing o'.publish → Publishing o.publish ∧ o'.caller = o.caller

theorem OpFrame.of_step {o o' : OperationState.State} (ha : producer a)
    (hs : OperationState.step b o a = some o') : OpFrame a o o' := by
  cases a with
  | dequeue | workFinished | reset | publish => cases ha
  | doStartReturns r =>
    cases r with
    | completed => cases ha
    | pending =>
      obtain ⟨hp, rfl⟩ := enabled_iff.1 hs
      constructor <;> grind [Publishing]
  | emplace requested =>
    obtain ⟨hp, hs⟩ := Option.ite_none_right_eq_some.1 hs
    split at hs <;> cases hs <;> constructor <;> grind [Publishing]
  | arm | armDeferred =>
    obtain ⟨hp, hs⟩ := Option.ite_none_right_eq_some.1 hs
    (repeat' split at hs) <;> cases hs <;> constructor <;> grind [Publishing]
  | check | test | testPrevious =>
    simp only [OperationState.step] at hs
    (repeat' split at hs) <;> cases hs <;> constructor <;> grind [Publishing]
  | _ =>
    obtain ⟨hp, rfl⟩ := enabled_iff.1 hs
    constructor <;> grind [Publishing]

/-- A thread that has yet to wake the consumer up: after it has enqueued an operation, added a
timer, finished the last work or requested the stop. -/
inductive Waker (ι : Type u) (σ : Type v) (γ : Type w)
  | start (i : ι)
  | publish (i : ι)
  | add (i : ι)
  | schedule (x : σ)
  | guard (g : γ)
  | stop

def State.Waking (s : State ι σ γ τ) : Waker ι σ γ → Prop
  | .start i => (s.loop.op i).start = .wakeup
  | .publish i => (s.loop.op i).publish = .wakeup
  | .add i => s.added i
  | .schedule x => (s.sched x).start = .wakeup
  | .guard g => s.guard g = .shutdown
  | .stop => s.stop = .shutdown

/-- The consumer will not stay in the semaphore: a token is there or about to be released. -/
def State.Covered (s : State ι σ γ τ) : Prop :=
  0 < s.tokens ∨ ∃ w, s.Waking w

/-- The consumer has found the op queue empty and does not look at it before it waits. -/
def ConsumerPc.Waiting : ConsumerPc ι σ τ → Prop
  | .earliest | .wait _ => True
  | _ => False

/-- The consumer has found work and does not look at the count before it waits. -/
def ConsumerPc.Checked : ConsumerPc ι σ τ → Prop
  | .consume _ | .earliest | .wait _ => True
  | _ => False

theorem ConsumerPc.Waiting.checked {p : ConsumerPc ι σ τ} (h : p.Waiting) : p.Checked := by
  cases p <;> trivial

theorem ConsumerPc.checked_of_wait {p : ConsumerPc ι σ τ} (h : p = .wait b) : p.Checked := by
  rw [h]
  trivial

/-- The invariant of the loop. The count is the work that has been started and not finished, and
what a waiting consumer would miss is covered. -/
structure Inv [DecidableEq ι] [LinearOrder τ] (stoppable : ι → Bool) (s : State ι σ γ τ) :
    Prop where
  loop : LoopBase.Inv (fun _ => true) stoppable s.loop
  calls : s.calls ≠ [] → s.consumer.inUser
  backend : ∀ i, Publishing (s.loop.op i).publish → (s.loop.op i).caller = .backend →
    ∃ b, s.consumer = .publishing i b
  count : ∃ a b c, Total (fun i => opWork (s.loop.op i)) a ∧ Total (fun x => (s.sched x).work) b ∧
    Total (fun g => (s.guard g).work) c ∧ s.workCount = a + b + c
  added : ∀ i, s.added i → s.loop.place i ≠ .out
  nodup : s.queue.Nodup
  timer : ∀ i, .timer i ∈ s.queue → 0 < (s.loop.op i).posts ∧ (s.loop.op i).finish = .queued
  sched : ∀ x, .sched x ∈ s.queue → (s.sched x).finish = .queued
  posted : ∀ x, .sched x ∈ s.queue ∨ (s.sched x).finish ≠ .queued →
    (s.sched x).start = .wakeup ∨ (s.sched x).start = .returned
  finishing : ∀ i, (s.loop.op i).finish = .workFinished →
    ∃ b, s.consumer = .workFinished (.timer i) b
  resetting : ∀ i, (s.loop.op i).finish = .reset → ∃ b, s.consumer = .reset i b
  schedFinishing : ∀ x, (s.sched x).finish = .workFinished ↔
    ∃ b, s.consumer = .workFinished (.sched x) b
  schedReset : ∀ x, (s.sched x).finish ≠ .reset
  queue : s.consumer.Waiting → s.queue ≠ [] → s.Covered
  work : s.consumer.Checked → s.workCount = 0 → s.Covered
  timers : ∀ b, s.consumer = .wait b → ∀ i, s.loop.place i = .inside →
    (∃ d, b = some d ∧ d ≤ s.loop.timers.deadline i) ∨ s.Covered

theorem Inv.init [DecidableEq ι] [LinearOrder τ] {stoppable : ι → Bool} (deadline : ι → τ) :
    Inv stoppable ({ loop := { timers := { deadline } } } : State ι σ γ τ) where
  loop := .init deadline
  calls h := absurd rfl h
  backend _ h := h.elim
  count := ⟨0, 0, 0, Total.zero.congr fun _ => rfl, Total.zero.congr fun _ => rfl,
    Total.zero.congr fun _ => rfl, rfl⟩
  added := by simp
  nodup := .nil
  timer := by simp
  sched := by simp
  posted := by simp
  finishing := by simp
  resetting := by simp
  schedFinishing := by simp
  schedReset := by simp
  queue h := h.elim
  work h := h.elim
  timers := by simp

/-- Cover does not get lost when no thread skips its wakeup. -/
theorem State.Covered.mono {s t : State ι σ γ τ} (h : s.Covered) (ht : s.tokens ≤ t.tokens)
    (hw : ∀ w, s.Waking w → t.Waking w ∨ 0 < t.tokens) : t.Covered := by
  rcases h with h | ⟨w, h⟩
  · exact .inl (by omega)
  · rcases hw w h with h | h
    · exact .inr ⟨w, h⟩
    · exact .inl h

section

variable [DecidableEq ι] [LinearOrder τ] {stoppable : ι → Bool} {s s' : State ι σ γ τ}

/-- The calls on the consumer's thread do not matter elsewhere. -/
theorem Inv.setCalls {c : List (Call ι σ γ)} (h : Inv stoppable s)
    (hc : c ≠ [] → s.consumer.inUser) : Inv stoppable { s with calls := c } :=
  { h with calls := hc }

theorem Inv.leave (h : Inv stoppable s) : Inv stoppable s.leave :=
  h.setCalls fun hc => h.calls fun hn => hc (by rw [hn]; rfl)

/-- While the consumer checks, it is inside no call. -/
theorem Inv.calls_of_checked (h : Inv stoppable s) (hc : s.consumer.Checked) : s.calls = [] := by
  by_contra hn
  have hu := h.calls hn
  cases hp : s.consumer <;> simp_all [ConsumerPc.inUser, ConsumerPc.Checked]

end

end Coio.TimeLoop
