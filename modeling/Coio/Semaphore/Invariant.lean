import Coio.Lib.Tally
import Coio.Semaphore.Model

namespace Coio.AsyncSemaphore
open Transition Tally
set_option autoImplicit true

/-- The steps of `start()` that run under the lock. -/
def StartPc.Locked : StartPc → Prop
  | .retest | .load | .cas _ | .enqueue | .unlockQueued | .unlock _ => True
  | _ => False

def StartPc.InQueue : StartPc → Prop
  | .unlockQueued | .queued => True
  | _ => False

def Outcome.permit : Outcome → Nat
  | .value => 1
  | .stopped => 0

/-- The permits that an operation has got and not yet passed on. -/
def StartPc.permit : StartPc → Nat
  | .unlock o | .reset o | .complete o => o.permit
  | .granted => 1
  | _ => 0

/-- The operation has no stop callback. -/
def StartPc.Bare : StartPc → Prop
  | .idle | .test | .emplace | .complete _ => True
  | _ => False

def CallbackPc.Locked : CallbackPc → Prop
  | .unregister | .unlock _ => True
  | _ => False

/-- The callback has taken its operation off the list. -/
def CallbackPc.Found : CallbackPc → Prop
  | .unlock true | .setStopped => True
  | _ => False

theorem CallbackPc.idle_of_resettable {c : CallbackPc} (h : c.Resettable) :
    ¬ c.Locked ∧ ¬ c.Found := by
  cases c <;> simp_all [Resettable, Locked, Found]

def ThreadPc.Locked : ThreadPc ι → Prop
  | .pop | .load | .cas _ | .terminate | .unlock _ => True
  | _ => False

/-- The operation that a thread is about to complete. -/
def ThreadPc.head : ThreadPc ι → Option ι
  | .unlock head => head
  | .reset head | .setValue head => some head
  | _ => none

/-- A call of `release()` that has had no effect yet. -/
def ThreadPc.pending : ThreadPc ι → Nat
  | .lock | .pop | .load | .cas _ | .terminate => 1
  | _ => 0

/-- A call of `release()` that has found no waiter. -/
def ThreadPc.Raising : ThreadPc ι → Prop
  | .load | .cas _ => True
  | _ => False

def ThreadPc.permit : ThreadPc ι → Nat
  | .returned true => 1
  | _ => 0

/-- What the state stands for: the list of waiters, and how many permits the operations and the
threads have got and not yet passed on. -/
structure View (ι : Type u) where
  queue : List ι := []
  held : Nat := 0
  tried : Nat := 0

/-- The invariant of a semaphore that started with `init` permits. -/
structure Inv (max init : Nat) (s : State ι κ) (v : View ι) [DecidableEq ι] : Prop where
  list : s.waiters.Spells v.queue
  queued : ∀ i, i ∈ v.queue ↔ (s.start i).InQueue
  mtx_start : ∀ i, s.mtx = some (.start i) ↔ (s.start i).Locked
  mtx_callback : ∀ i, s.mtx = some (.callback i) ↔ (s.callback i).Locked
  mtx_thread : ∀ k, s.mtx = some (.thread k) ↔ (s.thread k).Locked
  empty : v.queue ≠ [] → s.counter = 0
  enqueue : ∀ i, s.start i = .enqueue → s.counter = 0
  raising : ∀ k, (s.thread k).Raising → v.queue = []
  cas_start : ∀ i c, s.start i = .cas c → 0 < c
  cas_try : ∀ k c, s.thread k = .tryCas c → 0 < c
  cas_release : ∀ k c, s.thread k = .cas c → c < max
  bound : s.counter ≤ max
  balance : s.counter + s.grants = init + s.releases
  granted : ∀ k i, (s.thread k).head = some i → s.start i = .granted
  unique : ∀ k l i, (s.thread k).head = some i → (s.thread l).head = some i → k = l
  cancelled : ∀ i, s.start i = .cancelled ↔ (s.callback i).Found
  bare : ∀ i, (s.start i).Bare → s.callback i = .none
  setValue : ∀ k i, s.thread k = .setValue i → s.callback i = .none
  starts : ∀ i, s.starts i = s.values i + s.stops i + if s.start i = .idle then 0 else 1
  permits : ∀ i, s.permits i = s.values i + (s.start i).permit
  held : Total (fun i => (s.start i).permit) v.held
  tried : Total (fun k => (s.thread k).permit) v.tried
  delivered : s.grants = s.delivered + v.held + v.tried
  calls : Total (fun k => (s.thread k).pending) (s.calls - s.releases)
  called : s.releases ≤ s.calls
  tickets : (s.served ++ v.queue.map s.ticket).Pairwise (· < ·)
  arrivals : ∀ n ∈ s.served ++ v.queue.map s.ticket, n < s.arrivals

variable [DecidableEq ι] {max : Nat} {s t : State ι κ} {v : View ι}

attribute [local grind =] Function.update_apply StartPc.Locked StartPc.InQueue StartPc.permit
  Outcome.permit StartPc.Bare CallbackPc.Locked CallbackPc.Found ThreadPc.Locked ThreadPc.head
  ThreadPc.pending
  ThreadPc.Raising ThreadPc.permit CallbackPc.Resettable

theorem Inv.init [DecidableEq κ] (h : n ≤ max) : Inv max n (system ι κ max n).init {} := by
  constructor <;> simp [system, StartPc.Locked, StartPc.InQueue, StartPc.permit, CallbackPc.Locked,
    CallbackPc.Found, ThreadPc.Locked, ThreadPc.head, ThreadPc.pending, ThreadPc.Raising,
    ThreadPc.permit, Total.zero, h]
  exact Linked.Doubly.nil

/-- A move of `start()` that changes neither the lock nor the list nor the permits. -/
theorem Inv.move (h : Inv max n s v) (hq : pc.InQueue ↔ (s.start i).InQueue)
    (hl : pc.Locked ↔ (s.start i).Locked) (hp : pc.permit = (s.start i).permit)
    (hb : pc.Bare → (s.start i).Bare) (hen : pc = .enqueue → s.counter = 0)
    (hc : ∀ c, pc = .cas c → 0 < c) (hi : pc ≠ .idle ∧ s.start i ≠ .idle)
    (hg : pc ≠ .granted ∧ s.start i ≠ .granted) (hx : pc ≠ .cancelled ∧ s.start i ≠ .cancelled) :
    Inv max n { s with start := Function.update s.start i pc } v :=
  { h with
    queued := by have := h.queued; grind
    mtx_start := by have := h.mtx_start; grind
    enqueue := by have := h.enqueue; grind
    cas_start := by have := h.cas_start; grind
    granted := by have := h.granted; grind
    cancelled := by have := h.cancelled; grind
    bare := by have := h.bare; grind
    starts := by have := h.starts; grind
    permits := by have := h.permits; grind
    held := h.held.update (by rw [hp]) }

theorem Inv.start_start (h : Inv max n s v) (hs : startStep s i (.start b c) = some t) :
    Inv max n t v := by
  obtain ⟨hp, rfl⟩ := enabled_iff.1 hs
  exact { h with
    queued := by have := h.queued; grind
    mtx_start := by have := h.mtx_start; grind
    enqueue := by have := h.enqueue; grind
    cas_start := by have := h.cas_start; grind
    granted := by have := h.granted; grind
    cancelled := by have := h.cancelled; grind
    bare := by have := h.bare; grind
    starts := by have := h.starts; grind
    permits := by have := h.permits; grind
    held := h.held.update (by grind) }

theorem Inv.start_test (h : Inv max n s v) (hs : startStep s i .test = some t) : Inv max n t v := by
  obtain ⟨hp, rfl⟩ := enabled_iff.1 hs
  cases s.stop i <;> exact h.move (by grind) (by grind) (by grind) (by grind) (by grind) (by grind)
    (by grind) (by grind) (by grind)

theorem Inv.start_emplace (h : Inv max n s v) (hs : startStep s i .emplace = some t) :
    Inv max n t v := by
  obtain ⟨hp, hs⟩ := Option.ite_none_right_eq_some.1 hs
  have hcb := h.bare i (by simp [hp, StartPc.Bare])
  split at hs <;> obtain rfl := Option.some.inj hs
  all_goals exact { h with
    queued := by have := h.queued; grind
    mtx_start := by have := h.mtx_start; grind
    mtx_callback := by have := h.mtx_callback; grind
    enqueue := by have := h.enqueue; grind
    cas_start := by have := h.cas_start; grind
    granted := by have := h.granted; grind
    cancelled := by have := h.cancelled; grind
    bare := by have := h.bare; grind
    setValue := fun k j (hk : s.thread k = _) => by
      have := h.granted k j (by rw [hk]; rfl)
      have := h.setValue k j hk
      grind
    starts := by have := h.starts; grind
    permits := by have := h.permits; grind
    held := h.held.update (by grind) }

theorem Inv.start_emplaced (h : Inv max n s v) (hs : startStep s i .emplaced = some t) :
    Inv max n t v := by
  obtain ⟨⟨hp, -⟩, rfl⟩ := enabled_iff.1 hs
  exact h.move (by grind) (by grind) (by grind) (by grind) (by grind) (by grind)
    (by grind) (by grind) (by grind)

theorem Inv.start_lock (h : Inv max n s v) (hs : startStep s i .lock = some t) :
    Inv max n t v := by
  obtain ⟨⟨hp, hm⟩, rfl⟩ := enabled_iff.1 hs
  exact { h with
    queued := by have := h.queued; grind
    mtx_start := by have := h.mtx_start; grind
    mtx_callback := by have := h.mtx_callback; grind
    mtx_thread := by have := h.mtx_thread; grind
    enqueue := by have := h.enqueue; grind
    cas_start := by have := h.cas_start; grind
    granted := by have := h.granted; grind
    cancelled := by have := h.cancelled; grind
    bare := by have := h.bare; grind
    starts := by have := h.starts; grind
    permits := by have := h.permits; grind
    held := h.held.update (by grind) }

theorem Inv.start_retest (h : Inv max n s v) (hs : startStep s i .retest = some t) :
    Inv max n t v := by
  obtain ⟨hp, rfl⟩ := enabled_iff.1 hs
  cases s.stop i <;> exact h.move (by grind) (by grind) (by grind) (by grind) (by grind) (by grind)
    (by grind) (by grind) (by grind)

theorem Inv.start_load (h : Inv max n s v) (hs : startStep s i .load = some t) :
    Inv max n t v := by
  obtain ⟨hp, rfl⟩ := enabled_iff.1 hs
  exact h.move (by grind) (by grind) (by grind) (by grind) (by grind) (by grind)
    (by grind) (by grind) (by grind)

theorem Inv.start_cas (h : Inv max n s v) (hs : startStep s i (.cas c b) = some t) :
    ∃ w, Inv max n t w := by
  obtain ⟨hp, hs⟩ := Option.ite_none_right_eq_some.1 hs
  split at hs
  · rename_i hc
    obtain rfl := Option.some.inj hs
    obtain ⟨rfl, -⟩ := hc
    have hpos := h.cas_start i _ hp
    have hbound := h.bound
    refine ⟨{ v with held := v.held + 1 }, { h with
      queued := by have := h.queued; grind
      mtx_start := by have := h.mtx_start; grind
      empty := by have := h.empty; grind
      enqueue := by have := h.enqueue; grind
      cas_start := by have := h.cas_start; grind
      granted := by have := h.granted; grind
      cancelled := by have := h.cancelled; grind
      bare := by have := h.bare; grind
      bound := by dsimp only; omega
      balance := by have := h.balance; dsimp only; omega
      starts := by have := h.starts; grind
      permits := by have := h.permits; grind
      held := h.held.update (by grind)
      delivered := by have := h.delivered; dsimp only; omega }⟩
  · obtain rfl := Option.some.inj hs
    exact ⟨v, h.move (by grind) (by grind) (by grind) (by grind) (by grind) (by grind)
      (by grind) (by grind) (by grind)⟩

theorem Inv.start_enqueue (h : Inv max n s v) (hs : startStep s i .enqueue = some t) :
    ∃ w, Inv max n t w := by
  obtain ⟨hp, rfl⟩ := enabled_iff.1 hs
  have hi : i ∉ v.queue := by
    rw [h.queued, hp]
    exact id
  have hlock := (h.mtx_start i).2 (by simp [hp, StartPc.Locked])
  have hmap : v.queue.map (Function.update s.ticket i s.arrivals) = v.queue.map s.ticket :=
    List.map_congr_left fun j hj => Function.update_of_ne (fun he : j = i => hi (he ▸ hj)) ..
  have hq : s.served ++ (v.queue ++ [i]).map (Function.update s.ticket i s.arrivals) =
      (s.served ++ v.queue.map s.ticket) ++ [s.arrivals] := by
    simp [hmap]
  refine ⟨{ v with queue := v.queue ++ [i] }, { h with
    list := WaitingList.push_spec h.list hi
    queued := by have := h.queued; grind
    mtx_start := by have := h.mtx_start; grind
    empty := fun _ => h.enqueue i hp
    enqueue := by have := h.enqueue; grind
    raising := fun k hk => by
      have := (h.mtx_thread k).2 (by
        cases hpc : s.thread k <;> simp_all [ThreadPc.Raising, ThreadPc.Locked])
      simp [hlock] at this
    cas_start := by have := h.cas_start; grind
    granted := by have := h.granted; grind
    cancelled := by have := h.cancelled; grind
    bare := by have := h.bare; grind
    starts := by have := h.starts; grind
    permits := by have := h.permits; grind
    held := h.held.update (by grind)
    tickets := by
      rw [hq]
      exact List.pairwise_append.2 ⟨h.tickets, by simp, by have := h.arrivals; grind⟩
    arrivals := by
      rw [hq]
      have := h.arrivals
      grind }⟩

theorem Inv.start_unlockQueued (h : Inv max n s v) (hs : startStep s i .unlockQueued = some t) :
    Inv max n t v := by
  obtain ⟨hp, rfl⟩ := enabled_iff.1 hs
  have hlock := (h.mtx_start i).2 (by simp [hp, StartPc.Locked])
  exact { h with
    queued := by have := h.queued; grind
    mtx_start := by have := h.mtx_start; grind
    mtx_callback := by have := h.mtx_callback; grind
    mtx_thread := by have := h.mtx_thread; grind
    enqueue := by have := h.enqueue; grind
    cas_start := by have := h.cas_start; grind
    granted := by have := h.granted; grind
    cancelled := by have := h.cancelled; grind
    bare := by have := h.bare; grind
    starts := by have := h.starts; grind
    permits := by have := h.permits; grind
    held := h.held.update (by grind) }

theorem Inv.start_unlock (h : Inv max n s v) (hs : startStep s i (.unlock o) = some t) :
    Inv max n t v := by
  obtain ⟨hp, rfl⟩ := enabled_iff.1 hs
  have hlock := (h.mtx_start i).2 (by simp [hp, StartPc.Locked])
  exact { h with
    queued := by have := h.queued; grind
    mtx_start := by have := h.mtx_start; grind
    mtx_callback := by have := h.mtx_callback; grind
    mtx_thread := by have := h.mtx_thread; grind
    enqueue := by have := h.enqueue; grind
    cas_start := by have := h.cas_start; grind
    granted := by have := h.granted; grind
    cancelled := by have := h.cancelled; grind
    bare := by have := h.bare; grind
    starts := by have := h.starts; grind
    permits := by have := h.permits; grind
    held := h.held.update (by grind) }

theorem Inv.start_reset (h : Inv max n s v) (hs : startStep s i (.reset o) = some t) :
    Inv max n t v := by
  obtain ⟨⟨hp, hcb⟩, rfl⟩ := enabled_iff.1 hs
  obtain ⟨hl, hf⟩ := CallbackPc.idle_of_resettable hcb
  exact { h with
    queued := by have := h.queued; grind
    mtx_start := by have := h.mtx_start; grind
    mtx_callback := by have := h.mtx_callback; grind
    enqueue := by have := h.enqueue; grind
    cas_start := by have := h.cas_start; grind
    granted := by have := h.granted; grind
    cancelled := by have := h.cancelled; grind
    bare := by have := h.bare; grind
    setValue := by have := h.setValue; grind
    starts := by have := h.starts; grind
    permits := by have := h.permits; grind
    held := h.held.update (by grind) }

/-- An operation passes its permit on to its receiver. -/
theorem Inv.finish_value (h : Inv max n s v) (hp : (s.start i).permit = 1)
    (hq : ¬ (s.start i).InQueue ∧ ¬ (s.start i).Locked ∧ s.start i ≠ .cancelled ∧ s.start i ≠ .idle)
    (hcb : s.callback i = .none) (hk : ∀ k, (s.thread k).head ≠ some i) :
    Inv max n (s.finish i .value) { v with held := v.held - 1 } := by
  have hle := h.held.le i
  simp only [State.finish]
  exact { h with
    queued := by have := h.queued; grind
    mtx_start := by have := h.mtx_start; grind
    enqueue := by have := h.enqueue; grind
    cas_start := by have := h.cas_start; grind
    granted := by have := h.granted; grind
    cancelled := by have := h.cancelled; grind
    bare := by have := h.bare; grind
    starts := by have := h.starts; grind
    permits := by have := h.permits; grind
    held := h.held.update (by grind)
    delivered := by have := h.delivered; grind }

theorem Inv.start_complete (h : Inv max n s v) (hs : startStep s i (.complete o) = some t) :
    ∃ w, Inv max n t w := by
  obtain ⟨hp, rfl⟩ := enabled_iff.1 hs
  have hk : ∀ k, (s.thread k).head ≠ some i := fun k hk => by simp [h.granted k i hk] at hp
  cases o with
  | value =>
    exact ⟨_, h.finish_value (by grind) (by grind) (h.bare i (by grind)) hk⟩
  | stopped =>
    simp only [State.finish]
    exact ⟨v, { h with
      queued := by have := h.queued; grind
      mtx_start := by have := h.mtx_start; grind
      enqueue := by have := h.enqueue; grind
      cas_start := by have := h.cas_start; grind
      granted := by have := h.granted; grind
      cancelled := by have := h.cancelled; grind
      bare := by have := h.bare; grind
      starts := by have := h.starts; grind
      permits := by have := h.permits; grind
      held := h.held.update (by grind) }⟩

theorem Inv.startStep (h : Inv max n s v) (hs : startStep s i a = some t) :
    ∃ w, Inv max n t w := by
  cases a with
  | start b c => exact ⟨v, h.start_start hs⟩
  | test => exact ⟨v, h.start_test hs⟩
  | emplace => exact ⟨v, h.start_emplace hs⟩
  | emplaced => exact ⟨v, h.start_emplaced hs⟩
  | lock => exact ⟨v, h.start_lock hs⟩
  | retest => exact ⟨v, h.start_retest hs⟩
  | load => exact ⟨v, h.start_load hs⟩
  | cas c b => exact h.start_cas hs
  | enqueue => exact h.start_enqueue hs
  | unlockQueued => exact ⟨v, h.start_unlockQueued hs⟩
  | unlock o => exact ⟨v, h.start_unlock hs⟩
  | reset o => exact ⟨v, h.start_reset hs⟩
  | complete o => exact h.start_complete hs

end Coio.AsyncSemaphore
