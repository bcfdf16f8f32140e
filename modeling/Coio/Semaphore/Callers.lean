import Coio.Semaphore.Steps

namespace Coio.AsyncSemaphore
open Transition
open Function (update)
set_option autoImplicit true

/-- A call that a thread can be in. -/
inductive Call
  | tryAcquire
  | release
  deriving DecidableEq, Repr

def ThreadPc.call : ThreadPc ι → Option Call
  | .idle => none
  | .tryLoad | .tryCas _ | .returned _ => some .tryAcquire
  | _ => some .release

/-- What the users of a semaphore see of it: the operations that have not completed, the calls that
have not returned, the permits that they have got and the calls of `release()` they have made. -/
@[ext] structure Callers (ι : Type u) (κ : Type v) where
  busy : ι → Bool
  call : κ → Option Call
  delivered : Nat
  calls : Nat

def State.callers (s : State ι κ) : Callers ι κ where
  busy i := s.start i ≠ .idle
  call k := (s.thread k).call
  delivered := s.delivered
  calls := s.calls

/-- The actions that neither begin nor end an operation or a call. -/
def Act.internal : Act ι κ → Bool
  | .start _ (.start _ _) | .start _ (.complete _) | .callback _ .setStopped => false
  | .thread _ .tryAcquire | .thread _ (.takeResult _) => false
  | .thread _ .release | .thread _ (.unlock none) | .thread _ (.setValue _) => false
  | _ => true

theorem ThreadPc.idle_of_call {pc : ThreadPc ι} (h : pc.call = none) : pc = .idle := by
  cases pc <;> first | rfl | cases h

attribute [local grind =] Function.update_apply ThreadPc.call

variable {max : Nat} {s t : State ι κ} {v : View ι}

theorem callers_congr (hi : ∀ i, t.start i = .idle ↔ s.start i = .idle)
    (hk : ∀ k, (t.thread k).call = (s.thread k).call) (hd : t.delivered = s.delivered)
    (hc : t.calls = s.calls) : t.callers = s.callers := by
  ext j
  · simp [State.callers, hi]
  · simp [State.callers, hk]
  · exact hd
  · exact hc

variable [DecidableEq ι]

/-- The permits that the users have got, from those at the start and the calls of `release()`. -/
theorem Inv.delivered_le (h : Inv max n s v) : s.delivered ≤ n + s.calls := by
  have := h.balance
  have := h.delivered
  have := h.called
  omega

/-- With nobody inside, the counter accounts for every permit. -/
theorem Inv.counter_of_quiet (h : Inv max n s v) (hb : ∀ i, s.callers.busy i = false)
    (hc : ∀ k, s.callers.call k = none) : s.counter + s.delivered = n + s.calls := by
  have hstart : ∀ i, s.start i = .idle := by simpa [State.callers] using hb
  have hthread : ∀ k, s.thread k = .idle := fun k => ThreadPc.idle_of_call (hc k)
  have hheld := h.held.unique (Tally.Total.zero.congr fun i => by rw [hstart i]; rfl)
  have htried := h.tried.unique (Tally.Total.zero.congr fun k => by rw [hthread k]; rfl)
  have hcalls := h.calls.unique (Tally.Total.zero.congr fun k => by rw [hthread k]; rfl)
  have := h.balance
  have := h.delivered
  have := h.called
  omega

theorem callers_startStep (ha : (Act.start i a : Act ι κ).internal)
    (hs : startStep s i a = some t) : t.callers = s.callers := by
  cases a with
  | start b c => cases ha
  | complete o => cases ha
  | emplace =>
    obtain ⟨hp, hs⟩ := Option.ite_none_right_eq_some.1 hs
    split at hs <;> obtain rfl := Option.some.inj hs
    all_goals exact callers_congr (by grind) (fun _ => rfl) rfl rfl
  | cas c b =>
    obtain ⟨hp, hs⟩ := Option.ite_none_right_eq_some.1 hs
    split at hs <;> obtain rfl := Option.some.inj hs
    all_goals exact callers_congr (by grind) (fun _ => rfl) rfl rfl
  | _ =>
    obtain ⟨hp, rfl⟩ := enabled_iff.1 hs
    exact callers_congr (by grind) (fun _ => rfl) rfl rfl

theorem Inv.callers_callbackStep (h : Inv max n s v)
    (ha : (Act.callback i a : Act ι κ).internal) (hs : AsyncSemaphore.callbackStep s i a = some t) :
    t.callers = s.callers := by
  cases a with
  | setStopped => cases ha
  | unregister =>
    obtain ⟨hp, hs⟩ := Option.ite_none_right_eq_some.1 hs
    by_cases hi : i ∈ v.queue
    · obtain ⟨a, b, hab⟩ := List.append_of_mem hi
      obtain ⟨w, hw, -⟩ := WaitingList.unregister_mem (hab ▸ h.list)
      rw [hw] at hs
      obtain rfl := Option.some.inj hs
      have hlock := (h.mtx_callback i).2 (by simp [hp, CallbackPc.Locked])
      have hpc := h.queued_of_mem hi (by simp [hlock])
      exact callers_congr (by grind) (fun _ => rfl) rfl rfl
    · rw [WaitingList.unregister_of_notMem h.list hi] at hs
      obtain rfl := Option.some.inj hs
      rfl
  | _ =>
    obtain ⟨hp, rfl⟩ := enabled_iff.1 hs
    rfl

theorem thread_startStep (hs : startStep s i a = some t) : t.thread = s.thread := by
  cases a with
  | emplace =>
    obtain ⟨-, hs⟩ := Option.ite_none_right_eq_some.1 hs
    split at hs <;> obtain rfl := Option.some.inj hs <;> rfl
  | cas c b =>
    obtain ⟨-, hs⟩ := Option.ite_none_right_eq_some.1 hs
    split at hs <;> obtain rfl := Option.some.inj hs <;> rfl
  | complete o =>
    obtain ⟨-, rfl⟩ := enabled_iff.1 hs
    cases o <;> rfl
  | _ =>
    obtain ⟨-, rfl⟩ := enabled_iff.1 hs
    rfl

theorem thread_callbackStep (hs : callbackStep s i a = some t) : t.thread = s.thread := by
  cases a with
  | unregister =>
    obtain ⟨-, hs⟩ := Option.ite_none_right_eq_some.1 hs
    split at hs <;> obtain rfl := Option.some.inj hs <;> rfl
  | _ =>
    obtain ⟨-, rfl⟩ := enabled_iff.1 hs
    rfl

variable [DecidableEq κ]

theorem Inv.callers_threadStep (h : Inv max n s v)
    (ha : (Act.thread k a : Act ι κ).internal)
    (hs : AsyncSemaphore.threadStep max s k a = some t) :
    t.callers = s.callers := by
  cases a with
  | tryAcquire => cases ha
  | takeResult b => cases ha
  | release => cases ha
  | setValue i => cases ha
  | tryCas c b =>
    obtain ⟨hp, hs⟩ := Option.ite_none_right_eq_some.1 hs
    split at hs <;> obtain rfl := Option.some.inj hs
    all_goals exact callers_congr (fun _ => Iff.rfl) (by grind) rfl rfl
  | pop =>
    obtain ⟨hp, hs⟩ := Option.ite_none_right_eq_some.1 hs
    cases hq : v.queue with
    | nil =>
      rw [WaitingList.pop_nil (hq ▸ h.list)] at hs
      obtain rfl := Option.some.inj hs
      exact callers_congr (fun _ => Iff.rfl) (by grind) rfl rfl
    | cons i l =>
      obtain ⟨w, hw, -⟩ := WaitingList.pop_cons (hq ▸ h.list)
      rw [hw] at hs
      obtain rfl := Option.some.inj hs
      have hlock := (h.mtx_thread k).2 (by simp [hp, ThreadPc.Locked])
      have hpc := h.queued_of_mem (hq ▸ List.mem_cons_self) (by simp [hlock])
      exact callers_congr (by grind) (by grind) rfl rfl
  | cas c b =>
    obtain ⟨hp, hs⟩ := Option.ite_none_right_eq_some.1 hs
    split at hs <;> obtain rfl := Option.some.inj hs
    all_goals exact callers_congr (fun _ => Iff.rfl) (by grind) rfl rfl
  | unlock head =>
    cases head with
    | none => cases ha
    | some i =>
      obtain ⟨hp, rfl⟩ := enabled_iff.1 hs
      exact callers_congr (fun _ => Iff.rfl) (by grind) rfl rfl
  | _ =>
    obtain ⟨hp, rfl⟩ := enabled_iff.1 hs
    exact callers_congr (fun _ => Iff.rfl) (by grind) rfl rfl

/-- An internal step stays unseen. -/
theorem Inv.callers_internal (h : Inv max n s v) (ha : a.internal)
    (hs : AsyncSemaphore.step max s a = some t) : t.callers = s.callers := by
  cases a with
  | stop S =>
    obtain rfl := Option.some.inj hs
    rfl
  | start i a => exact callers_startStep ha hs
  | callback i a => exact h.callers_callbackStep ha hs
  | thread k a => exact h.callers_threadStep ha hs

theorem callers_start (hs : AsyncSemaphore.step max s (.start i (.start b c)) = some t) :
    s.callers.busy i = false ∧
      t.callers = { s.callers with busy := update s.callers.busy i true } := by
  obtain ⟨hp, rfl⟩ := enabled_iff.1 hs
  refine ⟨by simp [State.callers, hp], ?_⟩
  ext j <;> simp only [State.callers]
  grind

theorem callers_complete (hs : step max s (.start i (.complete o)) = some t) :
    s.callers.busy i = true ∧
      t.callers = { s.callers with
        busy := update s.callers.busy i false, delivered := s.callers.delivered + o.permit } := by
  obtain ⟨hp, rfl⟩ := enabled_iff.1 hs
  refine ⟨by simp [State.callers, hp], ?_⟩
  cases o <;> ext j <;> simp only [State.callers, State.finish, Outcome.permit, Nat.add_zero] <;>
    grind

theorem Inv.callers_setStopped (h : Inv max n s v)
    (hs : AsyncSemaphore.step max s (.callback i .setStopped) = some t) :
    s.callers.busy i = true ∧
      t.callers = { s.callers with busy := update s.callers.busy i false } := by
  obtain ⟨hp, rfl⟩ := enabled_iff.1 hs
  have hc := (h.cancelled i).2 (by simp [hp, CallbackPc.Found])
  refine ⟨by simp [State.callers, hc], ?_⟩
  ext j <;> simp only [State.callers, State.finish]
  grind

theorem callers_tryAcquire (hs : step max s (.thread k .tryAcquire) = some t) :
    s.callers.call k = none ∧
      t.callers = { s.callers with call := update s.callers.call k (some .tryAcquire) } := by
  obtain ⟨hp, rfl⟩ := enabled_iff.1 hs
  refine ⟨by simp [State.callers, hp, ThreadPc.call], ?_⟩
  ext j <;> simp only [State.callers]
  grind

theorem callers_takeResult (hs : step max s (.thread k (.takeResult b)) = some t) :
    s.callers.call k = some .tryAcquire ∧
      t.callers = { s.callers with
        call := update s.callers.call k none
        delivered := s.callers.delivered + b.toNat } := by
  obtain ⟨hp, rfl⟩ := enabled_iff.1 hs
  refine ⟨by simp [State.callers, hp, ThreadPc.call], ?_⟩
  ext j <;> simp only [State.callers]
  grind

theorem callers_release (hs : step max s (.thread k .release) = some t) :
    s.callers.call k = none ∧
      t.callers = { s.callers with
        call := update s.callers.call k (some .release), calls := s.callers.calls + 1 } := by
  obtain ⟨hp, rfl⟩ := enabled_iff.1 hs
  refine ⟨by simp [State.callers, hp, ThreadPc.call], ?_⟩
  ext j <;> simp only [State.callers]
  grind

theorem callers_unlock (hs : step max s (.thread k (.unlock none)) = some t) :
    s.callers.call k = some .release ∧
      t.callers = { s.callers with call := update s.callers.call k none } := by
  obtain ⟨hp, rfl⟩ := enabled_iff.1 hs
  refine ⟨by simp [State.callers, hp, ThreadPc.call], ?_⟩
  ext j <;> simp only [State.callers]
  grind

theorem Inv.callers_setValue (h : Inv max n s v)
    (hs : AsyncSemaphore.step max s (.thread k (.setValue i)) = some t) :
    s.callers.call k = some .release ∧ s.callers.busy i = true ∧
      t.callers = {
        busy := update s.callers.busy i false
        call := update s.callers.call k none
        delivered := s.callers.delivered + 1
        calls := s.callers.calls } := by
  obtain ⟨hp, rfl⟩ := enabled_iff.1 hs
  have hg := h.granted k i (by simp [hp, ThreadPc.head])
  refine ⟨by simp [State.callers, hp, ThreadPc.call], by simp [State.callers, hg], ?_⟩
  ext j <;> simp only [State.callers, State.finish] <;> grind

/-- Only a `release()` that reads the greatest counter reaches `std::terminate()`. -/
theorem terminate_of_step (hs : AsyncSemaphore.step max s a = some t)
    (ht : t.thread k = .terminate) :
    s.thread k = .terminate ∨ s.counter = max ∧ (s.thread k).pending = 1 := by
  cases a with
  | stop S =>
    obtain rfl := Option.some.inj hs
    exact .inl ht
  | start i a => exact .inl (thread_startStep hs ▸ ht)
  | callback i a => exact .inl (thread_callbackStep hs ▸ ht)
  | thread l a =>
    have hpc : ∀ pc, Function.update s.thread l pc k = .terminate →
        s.thread k = .terminate ∨ k = l ∧ pc = .terminate := by
      intro pc hk
      rw [Function.update_apply] at hk
      grind
    cases a with
    | tryCas c b =>
      obtain ⟨hp, hs⟩ := Option.ite_none_right_eq_some.1 hs
      split at hs <;> obtain rfl := Option.some.inj hs <;> have := hpc _ ht <;> grind
    | cas c b =>
      obtain ⟨hp, hs⟩ := Option.ite_none_right_eq_some.1 hs
      split at hs <;> obtain rfl := Option.some.inj hs <;> have := hpc _ ht <;>
        grind [ThreadPc.pending]
    | pop =>
      obtain ⟨hp, hs⟩ := Option.ite_none_right_eq_some.1 hs
      split at hs <;> obtain rfl := Option.some.inj hs <;> have := hpc _ ht <;> grind
    | _ =>
      obtain ⟨hp, rfl⟩ := enabled_iff.1 hs
      have := hpc _ ht
      grind [ThreadPc.pending]

end Coio.AsyncSemaphore
