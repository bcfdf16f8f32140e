import Coio.Semaphore.Invariant

namespace Coio.AsyncSemaphore
open Transition Tally
set_option autoImplicit true

variable [DecidableEq ι] {max : Nat} {s t : State ι κ} {v : View ι}

attribute [local grind =] Function.update_apply StartPc.Locked StartPc.InQueue StartPc.permit
  Outcome.permit StartPc.Bare CallbackPc.Locked CallbackPc.Found ThreadPc.Locked ThreadPc.head
  ThreadPc.pending ThreadPc.Raising ThreadPc.permit CallbackPc.Resettable

theorem Inv.callback_invoke (h : Inv max n s v) (hs : callbackStep s i .invoke = some t) :
    Inv max n t v := by
  obtain ⟨⟨hp, -⟩, rfl⟩ := enabled_iff.1 hs
  exact { h with
    mtx_callback := by have := h.mtx_callback; grind
    cancelled := by have := h.cancelled; grind
    bare := by have := h.bare; grind
    setValue := by have := h.setValue; grind }

theorem Inv.callback_lock (h : Inv max n s v) (hs : callbackStep s i .lock = some t) :
    Inv max n t v := by
  obtain ⟨⟨hp, hm⟩, rfl⟩ := enabled_iff.1 hs
  exact { h with
    mtx_start := by have := h.mtx_start; grind
    mtx_callback := by have := h.mtx_callback; grind
    mtx_thread := by have := h.mtx_thread; grind
    cancelled := by have := h.cancelled; grind
    bare := by have := h.bare; grind
    setValue := by have := h.setValue; grind }

/-- A waiter in the list waits once the lock is not its own. -/
theorem Inv.queued_of_mem (h : Inv max n s v) (hi : i ∈ v.queue) (hm : s.mtx ≠ some (.start i)) :
    s.start i = .queued := by
  have hq := (h.queued i).1 hi
  have hl := mt (h.mtx_start i).2 hm
  cases hpc : s.start i <;> simp_all [StartPc.InQueue, StartPc.Locked]

/-- A stop request takes its operation off the list, if it is still in it. -/
theorem Inv.callback_unregister (h : Inv max n s v) (hs : callbackStep s i .unregister = some t) :
    ∃ w, Inv max n t w := by
  obtain ⟨hp, hs⟩ := Option.ite_none_right_eq_some.1 hs
  by_cases hi : i ∈ v.queue
  · obtain ⟨a, b, hab⟩ := List.append_of_mem hi
    have hlist := h.list
    rw [hab] at hlist
    obtain ⟨w, hw, hspells⟩ := WaitingList.unregister_mem hlist
    rw [hw] at hs
    obtain rfl := Option.some.inj hs
    have hlock := (h.mtx_callback i).2 (by simp [hp, CallbackPc.Locked])
    have hpc : s.start i = .queued := h.queued_of_mem hi fun hl => by
      simp [hlock] at hl
    have hn := hlist.nodup
    have hsub : (a ++ b).Sublist (a ++ i :: b) := (List.sublist_cons_self i b).append_left a
    have hmap : (s.served ++ (a ++ b).map s.ticket).Sublist
        (s.served ++ v.queue.map s.ticket) := by
      rw [hab]
      exact (hsub.map s.ticket).append_left s.served
    refine ⟨{ v with queue := a ++ b }, { h with
      list := hspells
      queued := by
        have := h.queued
        rw [hab] at this
        grind
      mtx_start := by have := h.mtx_start; grind
      mtx_callback := by have := h.mtx_callback; grind
      empty := fun _ => h.empty (List.ne_nil_of_mem hi)
      enqueue := by have := h.enqueue; grind
      raising := fun k hk => by simp [h.raising k hk] at hi
      cas_start := by have := h.cas_start; grind
      granted := by have := h.granted; grind
      cancelled := by have := h.cancelled; grind
      bare := by have := h.bare; grind
      setValue := by have := h.setValue; grind
      starts := by have := h.starts; grind
      permits := by clear hn hlist hsub hmap hspells; have := h.permits; grind
      held := h.held.update (by grind)
      tickets := h.tickets.sublist hmap
      arrivals := fun m hm => h.arrivals m (hmap.subset hm) }⟩
  · rw [WaitingList.unregister_of_notMem h.list hi] at hs
    obtain rfl := Option.some.inj hs
    exact ⟨v, { h with
      mtx_callback := by have := h.mtx_callback; grind
      cancelled := by have := h.cancelled; grind
      bare := by have := h.bare; grind
      setValue := by have := h.setValue; grind }⟩

theorem Inv.callback_unlock (h : Inv max n s v) (hs : callbackStep s i (.unlock b) = some t) :
    Inv max n t v := by
  obtain ⟨hp, rfl⟩ := enabled_iff.1 hs
  have hlock := (h.mtx_callback i).2 (by simp [hp, CallbackPc.Locked])
  cases b
  all_goals exact { h with
    mtx_start := by have := h.mtx_start; grind
    mtx_callback := by have := h.mtx_callback; grind
    mtx_thread := by have := h.mtx_thread; grind
    cancelled := by have := h.cancelled; grind
    bare := by have := h.bare; grind
    setValue := by have := h.setValue; grind }

theorem Inv.callback_setStopped (h : Inv max n s v)
    (hs : callbackStep s i .setStopped = some t) : Inv max n t v := by
  obtain ⟨hp, rfl⟩ := enabled_iff.1 hs
  have hc := (h.cancelled i).2 (by simp [hp, CallbackPc.Found])
  simp only [State.finish]
  exact { h with
    queued := by have := h.queued; grind
    mtx_start := by have := h.mtx_start; grind
    mtx_callback := by have := h.mtx_callback; grind
    enqueue := by have := h.enqueue; grind
    cas_start := by have := h.cas_start; grind
    granted := by have := h.granted; grind
    cancelled := by have := h.cancelled; grind
    bare := by have := h.bare; grind
    setValue := by have := h.setValue; grind
    starts := by have := h.starts; grind
    permits := by have := h.permits; grind
    held := h.held.update (by grind) }

theorem Inv.callbackStep (h : Inv max n s v) (hs : callbackStep s i a = some t) :
    ∃ w, Inv max n t w := by
  cases a with
  | invoke => exact ⟨v, h.callback_invoke hs⟩
  | lock => exact ⟨v, h.callback_lock hs⟩
  | unregister => exact h.callback_unregister hs
  | unlock b => exact ⟨v, h.callback_unlock hs⟩
  | setStopped => exact ⟨v, h.callback_setStopped hs⟩

/-- A move of a thread that changes neither the lock nor the list nor the permits. -/
theorem Inv.thread_move [DecidableEq κ] (h : Inv max n s v) (hl : pc.Locked ↔ (s.thread k).Locked)
    (hh : pc.head = (s.thread k).head) (hp : pc.permit = (s.thread k).permit)
    (hn : pc.pending = (s.thread k).pending) (hr : pc.Raising → (s.thread k).Raising)
    (ht : ∀ c, pc = .tryCas c → 0 < c) (hc : ∀ c, pc = .cas c → c < max)
    (hv : ∀ i, pc ≠ .setValue i) :
    Inv max n { s with thread := Function.update s.thread k pc } v :=
  { h with
    mtx_thread := by have := h.mtx_thread; grind
    raising := by have := h.raising; grind
    cas_try := by have := h.cas_try; grind
    cas_release := by have := h.cas_release; grind
    granted := by have := h.granted; grind
    unique := by have := h.unique; grind
    setValue := by have := h.setValue; grind
    tried := h.tried.update (by rw [hp])
    calls := h.calls.update (by rw [hn]) }

variable [DecidableEq κ]

theorem Inv.thread_tryAcquire (h : Inv max n s v) (hs : threadStep max s k .tryAcquire = some t) :
    Inv max n t v := by
  obtain ⟨hp, rfl⟩ := enabled_iff.1 hs
  exact h.thread_move (by grind) (by grind) (by grind) (by grind) (by grind) (by grind)
    (by grind) (by grind)

theorem Inv.thread_tryLoad (h : Inv max n s v) (hs : threadStep max s k .tryLoad = some t) :
    Inv max n t v := by
  obtain ⟨hp, rfl⟩ := enabled_iff.1 hs
  by_cases hc : s.counter = 0
  · rw [if_pos hc]
    exact h.thread_move (by grind) (by grind) (by grind) (by grind) (by grind) (by grind)
      (by grind) (by grind)
  · rw [if_neg hc]
    exact h.thread_move (by grind) (by grind) (by grind) (by grind) (by grind) (by grind)
      (by grind) (by grind)

theorem Inv.thread_tryCas (h : Inv max n s v)
    (hs : threadStep max s k (.tryCas c b) = some t) : ∃ w, Inv max n t w := by
  obtain ⟨hp, hs⟩ := Option.ite_none_right_eq_some.1 hs
  split at hs
  · rename_i hc
    obtain rfl := Option.some.inj hs
    obtain ⟨rfl, -⟩ := hc
    have hpos := h.cas_try k _ hp
    have hbound := h.bound
    refine ⟨{ v with tried := v.tried + 1 }, { h with
      mtx_thread := by have := h.mtx_thread; grind
      empty := by have := h.empty; grind
      enqueue := by have := h.enqueue; grind
      raising := by have := h.raising; grind
      cas_try := by have := h.cas_try; grind
      cas_release := by have := h.cas_release; grind
      bound := by dsimp only; omega
      balance := by have := h.balance; dsimp only; omega
      granted := by have := h.granted; grind
      unique := by have := h.unique; grind
      setValue := by have := h.setValue; grind
      tried := h.tried.update (by grind)
      delivered := by have := h.delivered; dsimp only; omega
      calls := h.calls.update (by grind) }⟩
  · obtain rfl := Option.some.inj hs
    refine ⟨v, ?_⟩
    by_cases hc : s.counter = 0
    · rw [if_pos hc]
      exact h.thread_move (by grind) (by grind) (by grind) (by grind) (by grind) (by grind)
        (by grind) (by grind)
    · rw [if_neg hc]
      exact h.thread_move (by grind) (by grind) (by grind) (by grind) (by grind) (by grind)
        (by grind) (by grind)

theorem Inv.thread_takeResult (h : Inv max n s v)
    (hs : threadStep max s k (.takeResult b) = some t) : ∃ w, Inv max n t w := by
  obtain ⟨hp, rfl⟩ := enabled_iff.1 hs
  have hle := h.tried.le k
  have hpermit : (s.thread k).permit = b.toNat := by cases b <;> simp [hp, ThreadPc.permit]
  rw [hpermit] at hle
  exact ⟨{ v with tried := v.tried - b.toNat }, { h with
    mtx_thread := by have := h.mtx_thread; grind
    raising := by have := h.raising; grind
    cas_try := by have := h.cas_try; grind
    cas_release := by have := h.cas_release; grind
    granted := by have := h.granted; grind
    unique := by have := h.unique; grind
    setValue := by have := h.setValue; grind
    tried := h.tried.update (by rw [hpermit]; simp only [ThreadPc.permit]; omega)
    delivered := by have := h.delivered; dsimp only; omega
    calls := h.calls.update (by grind) }⟩

theorem Inv.thread_release (h : Inv max n s v) (hs : threadStep max s k .release = some t) :
    Inv max n t v := by
  obtain ⟨hp, rfl⟩ := enabled_iff.1 hs
  have hle := h.called
  exact { h with
    mtx_thread := by have := h.mtx_thread; grind
    raising := by have := h.raising; grind
    cas_try := by have := h.cas_try; grind
    cas_release := by have := h.cas_release; grind
    granted := by have := h.granted; grind
    unique := by have := h.unique; grind
    setValue := by have := h.setValue; grind
    tried := h.tried.update (by grind)
    calls := h.calls.update (by grind)
    called := by dsimp only; omega }

theorem Inv.thread_lock (h : Inv max n s v) (hs : threadStep max s k .lock = some t) :
    Inv max n t v := by
  obtain ⟨⟨hp, hm⟩, rfl⟩ := enabled_iff.1 hs
  exact { h with
    mtx_start := by have := h.mtx_start; grind
    mtx_callback := by have := h.mtx_callback; grind
    mtx_thread := by have := h.mtx_thread; grind
    raising := by have := h.raising; grind
    cas_try := by have := h.cas_try; grind
    cas_release := by have := h.cas_release; grind
    granted := by have := h.granted; grind
    unique := by have := h.unique; grind
    setValue := by have := h.setValue; grind
    tried := h.tried.update (by grind)
    calls := h.calls.update (by grind) }

theorem Inv.thread_load (h : Inv max n s v) (hs : threadStep max s k .load = some t) :
    Inv max n t v := by
  obtain ⟨hp, rfl⟩ := enabled_iff.1 hs
  have hb := h.bound
  by_cases hc : s.counter = max
  · rw [if_pos hc]
    exact h.thread_move (by grind) (by grind) (by grind) (by grind) (by grind) (by grind)
      (by grind) (by grind)
  · rw [if_neg hc]
    exact h.thread_move (by grind) (by grind) (by grind) (by grind) (by grind) (by grind)
      (by grind) (by grind)

theorem Inv.thread_cas (h : Inv max n s v)
    (hs : threadStep max s k (.cas c b) = some t) : Inv max n t v := by
  obtain ⟨hp, hs⟩ := Option.ite_none_right_eq_some.1 hs
  have hlock := (h.mtx_thread k).2 (by simp [hp, ThreadPc.Locked])
  have hle := h.calls.le k
  have hb := h.bound
  simp only [hp, ThreadPc.pending] at hle
  split at hs
  · rename_i hc
    obtain rfl := Option.some.inj hs
    obtain ⟨rfl, -⟩ := hc
    have hmax := h.cas_release k _ hp
    exact { h with
      mtx_thread := by have := h.mtx_thread; grind
      empty := fun hq => absurd (h.raising k (by simp [hp, ThreadPc.Raising])) hq
      enqueue := fun i (hi : s.start i = .enqueue) => by
        have := (h.mtx_start i).2 (by simp [hi, StartPc.Locked])
        simp [hlock] at this
      raising := by have := h.raising; grind
      cas_try := by have := h.cas_try; grind
      cas_release := by have := h.cas_release; grind
      bound := by dsimp only; omega
      balance := by have := h.balance; dsimp only; omega
      granted := by have := h.granted; grind
      unique := by have := h.unique; grind
      setValue := by have := h.setValue; grind
      tried := h.tried.update (by grind)
      calls := h.calls.update (by grind)
      called := by dsimp only; omega }
  · obtain rfl := Option.some.inj hs
    by_cases hc : s.counter = max
    · rw [if_pos hc]
      exact h.thread_move (by grind) (by grind) (by grind) (by grind) (by grind) (by grind)
        (by grind) (by grind)
    · rw [if_neg hc]
      exact h.thread_move (by grind) (by grind) (by grind) (by grind) (by grind) (by grind)
        (by grind) (by grind)

/-- `release()` passes its permit to the first waiter, if there is one. -/
theorem Inv.thread_pop (h : Inv max n s v) (hs : threadStep max s k .pop = some t) :
    ∃ w, Inv max n t w := by
  obtain ⟨hp, hs⟩ := Option.ite_none_right_eq_some.1 hs
  have hlock := (h.mtx_thread k).2 (by simp [hp, ThreadPc.Locked])
  have hlist := h.list
  cases hq : v.queue with
  | nil =>
    rw [hq] at hlist
    rw [WaitingList.pop_nil hlist] at hs
    obtain rfl := Option.some.inj hs
    exact ⟨v, { h with
      mtx_thread := by have := h.mtx_thread; grind
      raising := fun _ _ => hq
      cas_try := by have := h.cas_try; grind
      cas_release := by have := h.cas_release; grind
      granted := by have := h.granted; grind
      unique := by have := h.unique; grind
      setValue := by have := h.setValue; grind
      tried := h.tried.update (by grind)
      calls := h.calls.update (by grind) }⟩
  | cons i l =>
    rw [hq] at hlist
    obtain ⟨w, hw, hspells⟩ := WaitingList.pop_cons hlist
    rw [hw] at hs
    obtain rfl := Option.some.inj hs
    have hi : i ∈ v.queue := hq ▸ List.mem_cons_self
    have hpc : s.start i = .queued := h.queued_of_mem hi fun hl => by simp [hlock] at hl
    have hil := (List.nodup_cons.1 hlist.nodup).1
    have hg : ∀ j, (s.thread j).head ≠ some i := fun j hj => by simp [h.granted j i hj] at hpc
    have hle := h.calls.le k
    simp only [hp, ThreadPc.pending] at hle
    have hqueued := h.queued
    have htickets := h.tickets
    have harrivals := h.arrivals
    rw [hq] at hqueued htickets harrivals
    have hassoc : s.served ++ [s.ticket i] ++ l.map s.ticket =
        s.served ++ (i :: l).map s.ticket := by simp
    refine ⟨{ v with queue := l, held := v.held + 1 }, ?_⟩
    have hempty := h.empty (List.ne_nil_of_mem hi)
    clear hlist hi
    exact { h with
      list := hspells
      queued := by clear htickets harrivals hassoc; grind
      mtx_start := by have := h.mtx_start; grind
      mtx_thread := by have := h.mtx_thread; grind
      empty := fun _ => hempty
      enqueue := by have := h.enqueue; grind
      raising := fun j hj => by
        have hne := h.raising j
        rw [hq] at hne
        grind
      cas_start := by have := h.cas_start; grind
      cas_try := by have := h.cas_try; grind
      cas_release := by have := h.cas_release; grind
      balance := by have := h.balance; dsimp only; omega
      granted := by have := h.granted; grind
      unique := by have := h.unique; grind
      cancelled := by have := h.cancelled; grind
      bare := by have := h.bare; grind
      setValue := by have := h.setValue; grind
      starts := by have := h.starts; grind
      permits := by clear hqueued htickets harrivals hassoc; have := h.permits; grind
      held := h.held.update (by grind)
      tried := h.tried.update (by grind)
      delivered := by have := h.delivered; dsimp only; omega
      calls := h.calls.update (by grind)
      called := by dsimp only; omega
      tickets := hassoc ▸ htickets
      arrivals := hassoc ▸ harrivals }

theorem Inv.thread_unlock (h : Inv max n s v) (hs : threadStep max s k (.unlock o) = some t) :
    Inv max n t v := by
  obtain ⟨hp, rfl⟩ := enabled_iff.1 hs
  have hlock := (h.mtx_thread k).2 (by simp [hp, ThreadPc.Locked])
  cases o
  all_goals exact { h with
    mtx_start := by have := h.mtx_start; grind
    mtx_callback := by have := h.mtx_callback; grind
    mtx_thread := by have := h.mtx_thread; grind
    raising := by have := h.raising; grind
    cas_try := by have := h.cas_try; grind
    cas_release := by have := h.cas_release; grind
    granted := by have := h.granted; grind
    unique := by have := h.unique; grind
    setValue := by have := h.setValue; grind
    tried := h.tried.update (by grind)
    calls := h.calls.update (by grind) }

theorem Inv.thread_reset (h : Inv max n s v) (hs : threadStep max s k (.reset i) = some t) :
    Inv max n t v := by
  obtain ⟨⟨hp, hcb⟩, rfl⟩ := enabled_iff.1 hs
  obtain ⟨hl, hf⟩ := CallbackPc.idle_of_resettable hcb
  have hg := h.granted k i (by simp [hp, ThreadPc.head])
  exact { h with
    mtx_callback := by have := h.mtx_callback; grind
    mtx_thread := by have := h.mtx_thread; grind
    raising := by have := h.raising; grind
    cas_try := by have := h.cas_try; grind
    cas_release := by have := h.cas_release; grind
    granted := by have := h.granted; grind
    unique := by have := h.unique; grind
    cancelled := by have := h.cancelled; grind
    bare := by have := h.bare; grind
    setValue := by have := h.setValue; grind
    tried := h.tried.update (by grind)
    calls := h.calls.update (by grind) }

theorem Inv.thread_setValue (h : Inv max n s v) (hs : threadStep max s k (.setValue i) = some t) :
    ∃ w, Inv max n t w := by
  obtain ⟨hp, rfl⟩ := enabled_iff.1 hs
  have hg := h.granted k i (by simp [hp, ThreadPc.head])
  have hcb := h.setValue k i hp
  have hunique : ∀ j, j ≠ k → (s.thread j).head ≠ some i := fun j hjk hj =>
    hjk (h.unique j k i hj (by simp [hp, ThreadPc.head]))
  have hmove : Inv max n { s with thread := Function.update s.thread k .idle } v := { h with
    mtx_thread := by have := h.mtx_thread; grind
    raising := by have := h.raising; grind
    cas_try := by have := h.cas_try; grind
    cas_release := by have := h.cas_release; grind
    granted := by have := h.granted; grind
    unique := by have := h.unique; grind
    setValue := by have := h.setValue; grind
    tried := h.tried.update (by grind)
    calls := h.calls.update (by grind) }
  refine ⟨_, hmove.finish_value (i := i) ?_ ?_ hcb fun j => ?_⟩
  · simp [hg, StartPc.permit]
  · simp [hg, StartPc.InQueue, StartPc.Locked]
  · by_cases hj : j = k
    · simp [hj, ThreadPc.head]
    · simp [Function.update_of_ne hj, hunique j hj]

theorem Inv.threadStep (h : Inv max n s v) (hs : threadStep max s k a = some t) :
    ∃ w, Inv max n t w := by
  cases a with
  | tryAcquire => exact ⟨v, h.thread_tryAcquire hs⟩
  | tryLoad => exact ⟨v, h.thread_tryLoad hs⟩
  | tryCas c b => exact h.thread_tryCas hs
  | takeResult b => exact h.thread_takeResult hs
  | release => exact ⟨v, h.thread_release hs⟩
  | lock => exact ⟨v, h.thread_lock hs⟩
  | pop => exact h.thread_pop hs
  | load => exact ⟨v, h.thread_load hs⟩
  | cas c b => exact ⟨v, h.thread_cas hs⟩
  | unlock o => exact ⟨v, h.thread_unlock hs⟩
  | reset i => exact ⟨v, h.thread_reset hs⟩
  | setValue i => exact h.thread_setValue hs

theorem Inv.step (h : Inv max n s v) (hs : step max s a = some t) : ∃ w, Inv max n t w := by
  cases a with
  | stop S =>
    obtain rfl := Option.some.inj hs
    exact ⟨v, { h with }⟩
  | start i a => exact h.startStep hs
  | callback i a => exact h.callbackStep hs
  | thread k a => exact h.threadStep hs

theorem Inv.reachable (h : n ≤ max) (hs : (system ι κ max n).Reachable s) :
    ∃ v, Inv max n s v := by
  induction hs with
  | init => exact ⟨{}, Inv.init h⟩
  | step _ hs ih =>
    obtain ⟨v, hv⟩ := ih
    exact hv.step hs

end Coio.AsyncSemaphore
