import Coio.Atomutex.Model
import Coio.Lib.Progress

namespace Coio.Atomutex
open Transition
set_option autoImplicit true

/-- The thread tries to get the lock without waiting for anybody. -/
def Pc.Awake : Pc → Prop
  | .testAndSet | .wait => True
  | _ => False

/-- The thread is in `lock()`. -/
def Pc.Locking : Pc → Prop
  | .testAndSet | .wait | .blocked _ => True
  | _ => False

/-- The invariant of a lock that `o` holds. While the lock is free and a thread is blocked, a thread
is awake or about to notify it. -/
structure Inv (s : State κ) (o : Option κ) : Prop where
  owner : ∀ k, s.pc k = .held ↔ o = some k
  flag : s.flag_ = o.isSome
  waiting : ∀ k n, (k, n) ∈ s.waiting ↔ s.pc k = .blocked n
  seen : ∀ k n, s.pc k = .blocked n → n ≤ s.clears
  before : o = none → ∀ k n, s.pc k = .blocked n → n < s.clears
  wakes : o = none → (∃ k n, s.pc k = .blocked n) →
    (∃ k, (s.pc k).Awake) ∨ ∃ k, s.pc k = .notify s.clears

/-- The steps of a thread in `lock()` and the end of `unlock()`. -/
def Act.Internal : Act κ → Prop
  | .testAndSet _ | .wait _ | .notifyOne _ _ => True
  | _ => False

/-- The steps by which a thread gets the lock and gives it up. -/
def State.label (s : State κ) : Act κ → Option (LockAct κ)
  | .tryLock k | .testAndSet k => if s.flag_ then none else some (.acquire k)
  | .unlock k => some (.release k)
  | _ => none

variable [DecidableEq κ] {s t : State κ} {o : Option κ}

attribute [local grind =] Function.update_apply Pc.Awake

theorem Inv.init : Inv (system κ).init none := by
  constructor <;> simp [system]

theorem Inv.lock (h : Inv s o) (hs : step s (.lock k) = some t) : Inv t o := by
  obtain ⟨hk, rfl⟩ := enabled_iff.1 hs
  exact { h with
    owner := by have := h.owner; grind
    waiting := by have := h.waiting; grind
    seen := by have := h.seen; grind
    before := by have := h.before; grind
    wakes := fun _ _ => .inl ⟨k, by simp [Pc.Awake]⟩ }

/-- A `test_and_set`: the thread gets the lock if it was free. -/
theorem Inv.set (h : Inv s o) (hp : s.pc k = .idle ∨ s.pc k = .testAndSet)
    (hq : q = .idle ∨ q = .wait) :
    ∃ w, (Transition.lock κ).exec o (if s.flag_ then none else some (.acquire k)).toList = some w ∧
      Inv { s with
        flag_ := true, pc := Function.update s.pc k (if s.flag_ then q else .held) } w := by
  have hflag := h.flag
  cases o with
  | none =>
    rw [Option.isSome_none] at hflag
    refine ⟨some k, by simp [hflag, System.exec, Transition.lock], ?_⟩
    simp only [hflag, Bool.false_eq_true, if_false]
    exact {
      owner := by have := h.owner; grind
      flag := rfl
      waiting := by have := h.waiting; grind
      seen := by have := h.seen; grind
      before := fun ho => by cases ho
      wakes := fun ho => by cases ho }
  | some j =>
    rw [Option.isSome_some] at hflag
    refine ⟨some j, by simp [hflag, System.exec], ?_⟩
    simp only [hflag, if_true]
    exact {
      owner := by have := h.owner; grind
      flag := rfl
      waiting := by have := h.waiting; grind
      seen := by have := h.seen; grind
      before := fun ho => by cases ho
      wakes := fun ho => by cases ho }

theorem Inv.wait (h : Inv s o) (hs : step s (.wait k) = some t) : Inv t o := by
  obtain ⟨hk, hs⟩ := Option.ite_none_right_eq_some.1 hs
  have hflag := h.flag
  split at hs <;> obtain rfl := Option.some.inj hs
  · have ho : o ≠ none := fun ho => by simp_all
    exact { h with
      owner := by have := h.owner; grind
      waiting := by have := h.waiting; grind
      seen := by have := h.seen; grind
      before := fun hn => absurd hn ho
      wakes := fun hn => absurd hn ho }
  · exact { h with
      owner := by have := h.owner; grind
      waiting := by have := h.waiting; grind
      seen := by have := h.seen; grind
      before := by have := h.before; grind
      wakes := fun _ _ => .inl ⟨k, by simp [Pc.Awake]⟩ }

/-- A thread that is unblocked is awake. -/
theorem Inv.unblock (h : Inv s o) (hk : s.pc k = .blocked n) : Inv (s.unblock k) o where
  owner := by have := h.owner; simp only [State.unblock]; grind
  flag := h.flag
  waiting := by have := h.waiting; simp only [State.unblock, List.mem_filter]; grind
  seen := by have := h.seen; simp only [State.unblock]; grind
  before := by have := h.before; simp only [State.unblock]; grind
  wakes := fun _ _ => .inl ⟨k, by simp [State.unblock, Pc.Awake]⟩

theorem Inv.unlock (h : Inv s o) (hs : step s (.unlock k) = some t) :
    o = some k ∧ Inv t none := by
  obtain ⟨hk, rfl⟩ := enabled_iff.1 hs
  have ho := (h.owner k).1 hk
  refine ⟨ho, { h with
    owner := by have := h.owner; grind
    flag := rfl
    waiting := by have := h.waiting; grind
    seen := by have := h.seen; grind
    before := by have := h.seen; grind
    wakes := fun _ _ => .inr ⟨k, by simp⟩ }⟩

/-- A thread leaves `unlock()` once a blocked thread has been unblocked or none had to be. -/
theorem Inv.leave (h : Inv s o) (hk : s.pc k = .notify n)
    (hw : o = none → (∃ j m, s.pc j = .blocked m) → (∃ j, (s.pc j).Awake) ∨ n ≠ s.clears) :
    Inv { s with pc := Function.update s.pc k .idle } o where
  owner := by have := h.owner; grind
  flag := h.flag
  waiting := by have := h.waiting; grind
  seen := by have := h.seen; grind
  before := by have := h.before; grind
  wakes := fun ho ⟨j, m, hj⟩ => by
    have hj' : s.pc j = .blocked m := by grind
    have hkeep : (∃ i, (s.pc i).Awake) → ∃ i, (Function.update s.pc k .idle i).Awake := fun h =>
      exists_update h (by simp [hk, Pc.Awake]) _
    rcases h.wakes ho ⟨j, m, hj'⟩ with hawake | ⟨i, hi⟩
    · exact .inl (hkeep hawake)
    · by_cases hik : i = k
      · rw [hik, hk] at hi
        exact .inl (hkeep ((hw ho ⟨j, m, hj'⟩).resolve_right (· (Pc.notify.inj hi))))
      · exact .inr ⟨i, (Function.update_of_ne hik ..).trans hi⟩

theorem Inv.notifyOne (h : Inv s o) (hs : step s (.notifyOne k target) = some t) : Inv t o := by
  simp only [step] at hs
  split at hs
  · rename_i n hk
    split at hs
    · rename_i j
      obtain ⟨hany, rfl⟩ := enabled_iff.1 hs
      obtain ⟨p, hp, hpj⟩ := List.any_eq_true.1 hany
      simp only [decide_eq_true_eq] at hpj
      obtain ⟨rfl, hlt⟩ := hpj
      have hj := (h.waiting p.1 p.2).1 hp
      have hne : k ≠ p.1 := fun he => by
        rw [he, hj] at hk
        cases hk
      refine (h.unblock hj).leave (n := n) ?_ fun _ _ => .inl ⟨p.1, ?_⟩
      · simp [State.unblock, Function.update_of_ne hne, hk]
      · simp [State.unblock, Pc.Awake]
    · obtain ⟨hall, rfl⟩ := enabled_iff.1 hs
      refine h.leave hk fun ho ⟨j, m, hj⟩ => .inr fun hn => ?_
      have hge := List.all_eq_true.1 hall (j, m) ((h.waiting j m).2 hj)
      simp only [decide_eq_true_eq] at hge
      have hlt := h.before ho j m hj
      omega
  · cases hs

/-- A step of a thread is a step of the lock or leaves its owner alone. -/
theorem Inv.step (h : Inv s o) (hs : step s a = some t) :
    ∃ w, (Transition.lock κ).exec o (s.label a).toList = some w ∧ Inv t w := by
  cases a with
  | lock k => exact ⟨o, rfl, h.lock hs⟩
  | tryLock k =>
    obtain ⟨hk, rfl⟩ := enabled_iff.1 hs
    exact h.set (.inl hk) (.inl rfl)
  | testAndSet k =>
    obtain ⟨hk, rfl⟩ := enabled_iff.1 hs
    exact h.set (.inr hk) (.inr rfl)
  | wait k => exact ⟨o, rfl, h.wait hs⟩
  | spurious k =>
    simp only [Atomutex.step] at hs
    split at hs
    · rename_i n hk
      obtain rfl := Option.some.inj hs
      exact ⟨o, rfl, h.unblock hk⟩
    · cases hs
  | unlock k =>
    obtain ⟨rfl, hi⟩ := h.unlock hs
    exact ⟨none, by simp [State.label, System.exec, Transition.lock], hi⟩
  | notifyOne k target => exact ⟨o, rfl, h.notifyOne hs⟩

theorem simulation : (system κ).Simulation (Transition.lock κ) State.label Inv where
  init := .init
  step _ _ _ _ _ h hs := h.step hs

/-- The threads alone come to a state in which one of them has the lock. -/
def State.Progresses (s : State κ) : Prop :=
  (system κ).Leads Act.Internal (fun t => ∃ k, t.pc k = .held) s

theorem State.Progresses.cons (hs : step s a = some t) (ha : a.Internal) (h : t.Progresses) :
    s.Progresses :=
  System.Leads.cons (M := system κ) hs ha h

theorem Inv.progresses_of_test (h : Inv s none) (hk : s.pc k = .testAndSet) : s.Progresses := by
  have hflag := h.flag
  rw [Option.isSome_none] at hflag
  have hs : Atomutex.step s (.testAndSet k) =
      some { s with flag_ := true, pc := Function.update s.pc k .held } := by
    simp [Atomutex.step, hk, hflag]
  exact .cons hs trivial (.here ⟨k, Function.update_self ..⟩)

theorem Inv.progresses_of_wait (h : Inv s none) (hk : s.pc k = .wait) : s.Progresses := by
  have hflag := h.flag
  rw [Option.isSome_none] at hflag
  have hs : Atomutex.step s (.wait k) =
      some { s with pc := Function.update s.pc k .testAndSet } := by
    simp [Atomutex.step, hk, hflag]
  obtain ⟨w, hw, hi⟩ := h.step hs
  obtain rfl := Option.some.inj hw
  exact .cons hs trivial (hi.progresses_of_test (Function.update_self ..))

/-- While the lock is free, a thread in `lock()` does not wait for anybody outside of it but for one
that is about to notify. -/
theorem Inv.progresses (h : Inv s none) (hk : (s.pc k).Locking) : s.Progresses := by
  have hawake : (∃ j, (s.pc j).Awake) → s.Progresses := by
    rintro ⟨j, hj⟩
    cases hpc : s.pc j with
    | testAndSet => exact h.progresses_of_test hpc
    | wait => exact h.progresses_of_wait hpc
    | _ => simp [hpc, Pc.Awake] at hj
  cases hpc : s.pc k with
  | testAndSet => exact h.progresses_of_test hpc
  | wait => exact h.progresses_of_wait hpc
  | blocked m =>
    rcases h.wakes rfl ⟨k, m, hpc⟩ with hj | ⟨j, hj⟩
    · exact hawake hj
    · have hany : (s.waiting.any fun p => p.1 = k ∧ p.2 < s.clears) = true :=
        List.any_eq_true.2 ⟨(k, m), (h.waiting k m).2 hpc, by simpa using h.before rfl k m hpc⟩
      have hs : Atomutex.step s (.notifyOne j (some k)) =
          some { s.unblock k with pc := Function.update (s.unblock k).pc j .idle } := by
        simp only [Atomutex.step, hj, hany, if_true]
      obtain ⟨w, hw, hi⟩ := h.step hs
      obtain rfl := Option.some.inj hw
      have hne : k ≠ j := fun he => by
        rw [he, hj] at hpc
        cases hpc
      exact .cons hs trivial (hi.progresses_of_wait (k := k) (by simp [State.unblock, hne]))
  | _ => simp [hpc, Pc.Locking] at hk

/-- An `atomutex` is a lock, and no thread is left behind in it: while it is free, the threads
inside come by themselves to a state in which one of them has it. -/
theorem atomutex_lock (he : (system κ).exec (system κ).init as = some s) :
    ∃ o, (Transition.lock κ).exec none ((system κ).labels State.label (system κ).init as) = some o ∧
      (∀ k, s.pc k = .held ↔ o = some k) ∧
      (o = none → ∀ k, (s.pc k).Locking → s.Progresses) := by
  obtain ⟨o, ho, hi⟩ := simulation.run he
  refine ⟨o, ho, hi.owner, ?_⟩
  rintro rfl k hk
  exact hi.progresses hk

/-- Thread 1 blocks while thread 0 has the lock, thread 2 overtakes it, thread 0 notifies late. -/
def overtakenRun : List (Act Nat) :=
  [.tryLock 0, .lock 1, .testAndSet 1, .wait 1, .unlock 0, .tryLock 2, .unlock 2,
    .notifyOne 0 (some 1), .notifyOne 2 none]

theorem atomutex_lock_overtaken : ∃ s, (system Nat).exec (system Nat).init overtakenRun = some s ∧
    s.pc 1 = .wait ∧ s.Progresses := by
  have hend : ((system Nat).exec (system Nat).init overtakenRun).map (fun s => s.pc 1) =
      some .wait := rfl
  obtain ⟨s, hs, hpc⟩ := Option.map_eq_some_iff.1 hend
  obtain ⟨o, ho, -, hp⟩ := atomutex_lock hs
  obtain rfl : none = o := Option.some.inj ho
  exact ⟨s, hs, hpc, hp rfl 1 (by rw [hpc]; trivial)⟩

end Coio.Atomutex
