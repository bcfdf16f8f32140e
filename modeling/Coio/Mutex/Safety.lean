import Coio.Mutex.Queue

namespace Coio.AsyncMutex
open Transition Linked
set_option autoImplicit true

variable [DecidableEq ι] [DecidableEq κ] {s t : State ι κ} {v : View ι κ}

/-- The operation is found from `state_` or from `head_`. -/
def State.Linked (s : State ι κ) (i : ι) : Prop :=
  (∃ top, s.word = .locked top ∧ Reaches s.next top i) ∨ Reaches s.next s.head i

/-- The local pointers of `unlock()`. -/
def UnlockPc.locals : UnlockPc ι → List (Option ι)
  | .reverse current oldHead => [current, oldHead]
  | .storeHead oldHead => [oldHead]
  | .complete oldHead => [some oldHead]
  | _ => []

theorem Inv.owners_le (h : Inv s v) : s.owners.length ≤ 1 := by
  rw [h.owners]
  split <;> simp

theorem Inv.linked_of_stack (h : Inv s v) (hi : i ∈ v.stack) : s.Linked i := by
  have hv : v.holder ≠ none := fun hn => by
    have hfree := h.free hn
    simp only [View.waiters, List.append_eq_nil_iff, List.reverse_eq_nil_iff] at hfree
    rw [hfree.2] at hi
    cases hi
  refine .inl ⟨v.stack.head?, ?_, h.stack.reaches hi⟩
  rw [h.word, if_neg hv]

theorem Inv.linked_of_drained (h : Inv s v) (hi : i ∈ v.rest ∨ i ∈ v.line) :
    s.Linked i ∨ ∃ k, ∃ o ∈ (s.unlock k).locals, Reaches s.next o i := by
  by_cases hk : ∃ k, v.holder = some (.unlocking k)
  · obtain ⟨k, hk⟩ := hk
    have hu := h.unlocking k hk
    cases hpc : s.unlock k with
    | idle => exact absurd hu (by simp [hpc, UnlockOk])
    | load =>
      rw [hpc] at hu
      exact .inl (.inr (hu.2.reaches (hi.resolve_left (by simp [hu.1]))))
    | cas =>
      rw [hpc] at hu
      simp [hu.1, hu.2.1] at hi
    | exchange =>
      rw [hpc] at hu
      simp [hu.1, hu.2.1] at hi
    | reverse c o =>
      rw [hpc] at hu
      refine .inr ⟨k, ?_⟩
      rw [hpc]
      rcases hi with hi | hi
      · exact ⟨c, by simp [UnlockPc.locals], hu.1.reaches hi⟩
      · exact ⟨o, by simp [UnlockPc.locals], hu.2.1.reaches hi⟩
    | storeHead o =>
      rw [hpc] at hu
      refine .inr ⟨k, o, by simp [hpc, UnlockPc.locals], ?_⟩
      exact hu.2.1.reaches (hi.resolve_left (by simp [hu.1]))
    | complete o =>
      rw [hpc] at hu
      obtain ⟨hr, l, hl, hc⟩ := hu
      have hi := hi.resolve_left (by simp [hr])
      rw [hl] at hi
      rcases List.mem_cons.1 hi with rfl | hi
      · exact .inr ⟨k, some i, by simp [hpc, UnlockPc.locals], i, rfl, .refl⟩
      · exact .inl (.inr (hc.reaches hi))
  · obtain ⟨hr, hl⟩ := h.settled fun k hv => hk ⟨k, hv⟩
    exact .inl (.inr (hl.reaches (hi.resolve_left (by simp [hr]))))

theorem Inv.not_storeHead_none (h : Inv s v) : s.unlock k ≠ .storeHead none := by
  intro hk
  obtain ⟨-, -, hl, hne⟩ := h.holder_of_unlock hk nofun
  exact hne hl.of_none

/-- Safety of the mutex in every interleaving: one owner, one completion for each start, first come
first served, no waiter lost, no null waiter. -/
theorem lock_safety (h : (system ι κ).Reachable s) :
    s.owners.length ≤ 1 ∧
    (∀ i, s.starts i = s.completions i + if s.start i = .idle then 0 else 1) ∧
    s.handoffs <+: s.pushes ∧
    (s.word = .notLocked → s.owners = [] ∧ ∀ i, s.start i ≠ .queued) ∧
    (∀ i, s.start i = .queued →
      s.Linked i ∨ ∃ k, ∃ o ∈ (s.unlock k).locals, Reaches s.next o i) ∧
    (∀ k t, step s (.tryLock k) = some t → t.owners ≠ s.owners → s.word = .notLocked) ∧
    ∀ k, s.unlock k ≠ .storeHead none := by
  obtain ⟨v, hv⟩ := Inv.reachable h
  refine ⟨hv.owners_le, hv.count, ⟨_, hv.pushes.symm⟩, fun hw => ⟨?_, fun i hi => ?_⟩,
    fun i hi => ?_, fun k t ht hne => ?_, fun k => hv.not_storeHead_none⟩
  · rw [hv.owners, hv.free_of_word hw]
  · have hi' := (hv.queued i).1 hi
    rw [hv.free (hv.free_of_word hw)] at hi'
    cases hi'
  · have hi' := (hv.queued i).1 hi
    simp only [View.waiters, List.mem_append, List.mem_reverse] at hi'
    rcases hi' with hi' | hi'
    · exact hv.linked_of_drained hi'
    · exact .inl (hv.linked_of_stack hi')
  · by_contra hw
    rw [step, if_neg hw] at ht
    obtain rfl := Option.some.inj ht
    exact hne rfl

/-- A waiter is pushed while `unlock()` has not yet drained it. -/
def drainRun : List (Act Nat Nat) :=
  [.tryLock 0, .begin 1, .guess 1, .link 1 none, .push 1 none false, .unlock 0 (.tryLocker 0),
    .load 0, .cas 0, .exchange 0 (some 1)]

theorem lock_safety_drain : ∃ s, (system Nat Nat).exec {} drainRun = some s ∧
    (s.Linked 1 ∨ ∃ k, ∃ o ∈ (s.unlock k).locals, Reaches s.next o 1) := by
  refine ⟨_, rfl, ?_⟩
  exact (lock_safety ((system Nat Nat).reachable_exec drainRun rfl)).2.2.2.2.1 1 rfl

/-- While `unlock()` reverses the waiters, only its local pointers lead to them. -/
theorem drained_not_linked : ¬ ∀ s : State Nat Nat, (system Nat Nat).Reachable s →
    ∀ i, s.start i = .queued → s.Linked i := by
  intro h
  rcases h _ ((system Nat Nat).reachable_exec drainRun rfl) 1 rfl with ⟨top, hw, hr⟩ | hr
  · obtain rfl := Word.locked.inj hw
    exact not_reaches_none _ _ hr
  · exact not_reaches_none _ _ hr

end Coio.AsyncMutex
