import Coio.Signal.Safety

namespace Coio.Signal
open Transition
open Function (update)
set_option autoImplicit true

/-- No call of `sigaction` fails. -/
def Act.succeeds : Act ι κ → Bool
  | .add _ _ (.install success) | .remove _ _ (.restore success)
  | .worker (.reset success) => success
  | _ => true

/-- No `add` installs the handler while a dispatch has reset it and not yet locked the list. -/
def Act.timely [DecidableEq ι] (s : State ι κ) : Act ι κ → Bool
  | .add _ _ (.install _) => s.worker ≠ .lock
  | _ => true

/-- The runs in which `sigaction` succeeds and every `add` is timely. -/
def timelySystem (ι : Type u) (κ : Type v) [DecidableEq ι] [DecidableEq κ] :
    System (State ι κ) (Act ι κ) where
  init := {}
  step s a := if a.succeeds && a.timely s then step s a else none

/-- No add, remove or dispatch is in progress. -/
def State.Quiescent (s : State ι κ) : Prop := (∀ k, s.pc k = .idle) ∧ s.worker = .idle

/-- How the disposition goes with `head` and with who is about to change either. -/
structure Disposed (head : Head ι) (installed : Bool) (worker : WorkerPc ι) (pc : κ → Pc ι) :
    Prop where
  reset : worker = .lock ∨ worker = .detach → installed = false
  null : head = .null → installed = false
  node : ∀ i, head = .node i → installed = true ∨ worker = .lock ∨ worker = .detach
  this : head = .this → installed = true → ∃ k i, pc k = .add .link i ∨ pc k = .remove .restore i
  link : ∀ k i, pc k = .add .link i → installed = true ∨ worker = .lock

variable {head : Head ι} {installed : Bool} {worker : WorkerPc ι} {pc : κ → Pc ι}

/-- A move of a thread that is neither about to link a waiter nor to restore the disposition. -/
theorem Disposed.goto [DecidableEq κ] (h : Disposed head installed worker pc)
    (hold : ∀ i, pc k ≠ .add .link i ∧ pc k ≠ .remove .restore i)
    (hnew : ∀ i, p = .add .link i → installed = true ∨ worker = .lock) :
    Disposed head installed worker (update pc k p) :=
  { h with
    this := fun hh hi => by
      obtain ⟨j, i, hj⟩ := h.this hh hi
      have hjk : j ≠ k := by
        rintro rfl
        exact hj.elim (hold i).1 (hold i).2
      exact ⟨j, i, by rwa [Function.update_of_ne hjk]⟩
    link := fun j i hj => by
      by_cases hjk : j = k
      · rw [hjk, Function.update_self] at hj
        exact hnew i hj
      · rw [Function.update_of_ne hjk] at hj
        exact h.link j i hj }

/-- A move of the watchdog away from the reset and the detachment. -/
theorem Disposed.advance (h : Disposed head installed worker pc) (hold : worker ≠ .lock)
    (hold' : worker ≠ .detach) (hnew : next ≠ .lock) (hnew' : next ≠ .detach) :
    Disposed head installed next pc where
  reset hw := hw.elim (absurd · hnew) (absurd · hnew')
  null := h.null
  node i hi := .inl ((h.node i hi).resolve_right (by simp [hold, hold']))
  this := h.this
  link k i hk := .inl ((h.link k i hk).resolve_right hold)

variable [DecidableEq ι] [DecidableEq κ] {s t : State ι κ} {v : View ι κ}

def State.Disposed (s : State ι κ) : Prop :=
  Signal.Disposed s.list.head s.installed s.worker s.pc

omit [DecidableEq ι] [DecidableEq κ] in
/-- A party with the lock excludes the others from it. -/
theorem Inv.exclusive (h : Inv s v) (hk : (s.pc k).Locked) :
    ¬ s.worker.Locked ∧ ∀ j, (s.pc j).Locked → j = k := by
  have hm := (h.mtx_thread k).2 hk
  constructor
  · intro hw
    have := h.mtx_worker.2 hw
    rw [hm] at this
    cases this
  · intro j hj
    have := (h.mtx_thread j).2 hj
    rw [hm] at this
    cases this
    rfl

omit [DecidableEq ι] [DecidableEq κ] in
theorem Inv.exclusive_worker (h : Inv s v) (hw : s.mtx = none ∨ s.worker.Locked) (k : κ) :
    ¬ (s.pc k).Locked := by
  intro hk
  have hm := (h.mtx_thread k).2 hk
  rcases hw with hw | hw
  · rw [hw] at hm
    cases hm
  · rw [h.mtx_worker.2 hw] at hm
    cases hm

omit [DecidableEq ι] in
/-- When the party with the lock moves, no other one is about to link a waiter. -/
theorem not_link_of_exclusive (hlock : ∀ j, (s.pc j).Locked → j = k) (hp : p ≠ .add .link l) :
    update s.pc k p j ≠ .add .link l := by
  intro hj
  by_cases hjk : j = k
  · rw [hjk, Function.update_self] at hj
    exact hp hj
  · rw [Function.update_of_ne hjk] at hj
    exact hjk (hlock j (by rw [hj]; trivial))

theorem State.Disposed.addStep (h : s.Disposed) (hv : Inv s v) (hg : (Act.add k i a).succeeds)
    (ht : (Act.add k i a).timely s) (hs : Signal.addStep s k i a = some t) : t.Disposed := by
  cases a with
  | start =>
    obtain ⟨⟨hp, -⟩, rfl⟩ := enabled_iff.1 hs
    exact h.goto (by simp [hp]) nofun
  | lock =>
    obtain ⟨⟨hp, -⟩, rfl⟩ := enabled_iff.1 hs
    exact h.goto (by simp [hp]) nofun
  | test =>
    obtain ⟨hp, rfl⟩ := enabled_iff.1 hs
    refine h.goto (by simp [hp]) fun j hj => ?_
    have hlock := (hv.exclusive (by rw [hp]; trivial : (s.pc k).Locked)).1
    cases hh : s.list.head with
    | node n =>
      rcases h.node n hh with hi | hw | hw
      · exact .inl hi
      · exact .inr hw
      · rw [hw] at hlock
        exact absurd trivial hlock
    | null => simp [hh] at hj
    | this => simp [hh] at hj
  | install success =>
    obtain ⟨hp, hs⟩ := Option.ite_none_right_eq_some.1 hs
    obtain rfl : success = true := hg
    obtain rfl := Option.some.inj hs
    have hlock := (hv.exclusive (by rw [hp]; trivial : (s.pc k).Locked)).1
    have hhead := hv.install k i hp
    have hw : s.worker ≠ .lock := of_decide_eq_true ht
    exact {
      reset := fun hr => by
        rcases hr with hr | hr
        · exact absurd hr hw
        · rw [show s.worker = .detach from hr] at hlock
          exact absurd trivial hlock
      null := fun hn => by
        rw [show s.list.head = .null from hn] at hhead
        cases hhead
      node := fun _ _ => .inl rfl
      this := fun _ _ => ⟨k, i, .inl (Function.update_self ..)⟩
      link := fun _ _ _ => .inl rfl }
  | link =>
    obtain ⟨hp, rfl⟩ := enabled_iff.1 hs
    have hi := h.link k i hp
    have hhead : (s.list.link i).head = .node i := by
      unfold WaitingList.link
      cases s.list.head.node? <;> rfl
    have hlock := (hv.exclusive (by rw [hp]; trivial : (s.pc k).Locked)).2
    exact {
      reset := h.reset
      null := fun hn => by
        rw [show (s.list.link i).head = .null from hn] at hhead
        cases hhead
      node := fun _ _ => hi.imp_right .inl
      this := fun hn _ => by
        rw [show (s.list.link i).head = .this from hn] at hhead
        cases hhead
      link := fun j l hj => absurd hj (not_link_of_exclusive hlock nofun) }
  | unlock r =>
    obtain ⟨hp, rfl⟩ := enabled_iff.1 hs
    exact h.goto (by simp [hp]) nofun

/-- What a cancellation leaves of `head`. -/
theorem WaitingList.head_remove_true {w w' : WaitingList ι} (h : w.remove i = (w', true)) :
    w'.head = w.head ∨ w.head = .node i ∧ w'.head ≠ .null := by
  have hw' : w' = (w.remove i).1 := by rw [h]
  have hfound : (w.remove i).2 = true := by rw [h]
  unfold WaitingList.remove at hw' hfound
  cases hp : w.prev i with
  | some p =>
    left
    rw [hw', hp]
    simp only
    split <;> rfl
  | none =>
    by_cases hh : w.head = .node i
    · refine .inr ⟨hh, ?_⟩
      rw [hw', hp]
      simp only [hh, if_true]
      cases w.next i <;> nofun
    · rw [hp] at hfound
      simp [hh] at hfound

theorem State.Disposed.removeStep (h : s.Disposed) (hv : Inv s v) (hg : (Act.remove k i a).succeeds)
    (hs : Signal.removeStep s k i a = some t) : t.Disposed := by
  cases a with
  | cancel =>
    obtain ⟨⟨hp, -⟩, rfl⟩ := enabled_iff.1 hs
    exact h.goto (by simp [hp]) nofun
  | lock =>
    obtain ⟨⟨hp, -⟩, rfl⟩ := enabled_iff.1 hs
    exact h.goto (by simp [hp]) nofun
  | cut =>
    obtain ⟨hp, hs⟩ := Option.ite_none_right_eq_some.1 hs
    split at hs
    · rename_i w hw
      obtain rfl := Option.some.inj hs
      have hhead := WaitingList.head_remove_true hw
      have hgoto := h.goto (k := k)
        (p := .remove (if w.head = .this then .restore else .unlock true) i) (by simp [hp]) nofun
      exact { hgoto with
        null := fun hn => by
          rcases hhead with he | ⟨-, hne⟩
          · exact h.null (he ▸ hn)
          · exact absurd hn hne
        node := fun j hj => by
          rcases hhead with he | ⟨hn, -⟩
          · exact h.node j (he ▸ hj)
          · exact h.node i hn
        this := fun hh _ => ⟨k, i, .inr (by
          rw [show w.head = .this from hh]
          exact Function.update_self ..)⟩ }
    · obtain rfl := Option.some.inj hs
      exact h.goto (by simp [hp]) nofun
  | restore success =>
    obtain ⟨hp, rfl⟩ := enabled_iff.1 hs
    obtain rfl : success = true := hg
    have hhead := hv.restore k i hp
    have hlock := (hv.exclusive (by rw [hp]; trivial : (s.pc k).Locked)).2
    exact {
      reset := fun _ => rfl
      null := fun _ => rfl
      node := fun j hj => by
        rw [show s.list.head = .node j from hj] at hhead
        cases hhead
      this := nofun
      link := fun j l hj => absurd hj (not_link_of_exclusive hlock nofun) }
  | unlock found =>
    obtain ⟨hp, rfl⟩ := enabled_iff.1 hs
    refine h.goto (by simp [hp]) fun j hj => ?_
    cases found <;> cases hj
  | finish =>
    obtain ⟨hp, rfl⟩ := enabled_iff.1 hs
    exact h.goto (by simp [hp]) nofun

omit [DecidableEq κ] in
theorem State.Disposed.workerStep (h : s.Disposed) (hv : Inv s v)
    (hg : (Act.worker a : Act ι κ).succeeds) (hs : Signal.workerStep s a = some t) :
    t.Disposed := by
  cases a with
  | dispatch =>
    obtain ⟨⟨hp, -⟩, rfl⟩ := enabled_iff.1 hs
    exact h.advance (by simp [hp]) (by simp [hp]) nofun nofun
  | reset success =>
    obtain ⟨hp, rfl⟩ := enabled_iff.1 hs
    obtain rfl : success = true := hg
    exact {
      reset := fun _ => rfl
      null := fun _ => rfl
      node := fun _ _ => .inr (.inl rfl)
      this := nofun
      link := fun _ _ _ => .inr rfl }
  | lock =>
    obtain ⟨⟨hp, hm⟩, rfl⟩ := enabled_iff.1 hs
    exact {
      reset := fun _ => h.reset (.inl hp)
      null := h.null
      node := fun _ _ => .inr (.inr rfl)
      this := h.this
      link := fun k i hk => absurd (by rw [show s.pc k = _ from hk]; trivial)
        (hv.exclusive_worker (.inl hm) k) }
  | detach =>
    obtain ⟨hp, rfl⟩ := enabled_iff.1 hs
    have hi := h.reset (.inr hp)
    exact {
      reset := fun _ => hi
      null := fun _ => hi
      node := nofun
      this := nofun
      link := fun k i hk => absurd (by rw [show s.pc k = _ from hk]; trivial)
        (hv.exclusive_worker (.inr (by rw [hp]; trivial)) k) }
  | unlockEmpty =>
    obtain ⟨hp, rfl⟩ := enabled_iff.1 hs
    exact h.advance (by simp [hp]) (by simp [hp]) nofun nofun
  | visit waiter =>
    obtain ⟨hp, rfl⟩ := enabled_iff.1 hs
    have hd : Signal.Disposed _ _ (.unlock waiter (s.list.visit waiter).2) _ :=
      h.advance (by simp [hp]) (by simp [hp]) nofun nofun
    rw [← s.list.head_visit waiter] at hd
    exact hd
  | unlock waiter next =>
    obtain ⟨hp, rfl⟩ := enabled_iff.1 hs
    exact h.advance (by simp [hp]) (by simp [hp]) nofun nofun
  | finish waiter next =>
    obtain ⟨hp, rfl⟩ := enabled_iff.1 hs
    refine h.advance (by simp [hp]) (by simp [hp]) ?_ ?_ <;> cases next <;> nofun
  | relock waiter =>
    obtain ⟨⟨hp, -⟩, rfl⟩ := enabled_iff.1 hs
    exact h.advance (by simp [hp]) (by simp [hp]) nofun nofun

theorem State.Disposed.step (h : s.Disposed) (hv : Inv s v) (hg : a.succeeds) (ht : a.timely s)
    (hs : Signal.step s a = some t) : t.Disposed := by
  cases a with
  | deliver written =>
    obtain ⟨-, rfl⟩ := enabled_iff.1 hs
    exact h
  | add k i a => exact h.addStep hv hg ht hs
  | remove k i a => exact h.removeStep hv hg hs
  | worker a => exact h.workerStep hv hg hs

theorem State.Disposed.reachable (h : (timelySystem ι κ).Reachable s) :
    (∃ v, Inv s v) ∧ s.Disposed := by
  refine System.Invariant.reachable (M := timelySystem ι κ)
    (I := fun s => (∃ v, Inv s v) ∧ s.Disposed) ⟨⟨⟨{}, .init⟩, ?_⟩, ?_⟩ h
  · exact ⟨fun _ => rfl, fun _ => rfl, nofun, nofun, nofun⟩
  · rintro s a t - ⟨⟨v, hv⟩, hd⟩ hs
    obtain ⟨hg, hs⟩ := Option.ite_none_right_eq_some.1 hs
    obtain ⟨hg, ht⟩ := Bool.and_eq_true_iff.1 hg
    exact ⟨hv.step hs, hd.step hv hg ht hs⟩

/-- In the runs in which no `add` installs the handler between the reset of a dispatch and its lock,
the handler is installed exactly while there are waiters, and not after the signal has fired. -/
theorem disposition (h : (timelySystem ι κ).Reachable s) :
    (s.Quiescent → (s.installed = true ↔ ∃ i, s.list.head = .node i)) ∧
    (s.list.head = .null → s.installed = false) := by
  obtain ⟨-, hd⟩ := State.Disposed.reachable h
  refine ⟨fun ⟨hpc, hw⟩ => ⟨fun hi => ?_, fun ⟨i, hh⟩ => ?_⟩, hd.null⟩
  · cases hh : s.list.head with
    | node i => exact ⟨i, rfl⟩
    | null =>
      rw [hd.null hh] at hi
      cases hi
    | this =>
      obtain ⟨k, i, hk | hk⟩ := hd.this hh hi <;> rw [hpc k] at hk <;> cases hk
  · refine (hd.node i hh).resolve_right ?_
    rw [hw]
    nofun

/-- A wait is registered, and the signal is delivered and dispatched. -/
def dispatchedRun : List (Act Nat Bool) :=
  addRun true 1 true ++ [.deliver true, .worker .dispatch, .worker (.reset true), .worker .lock,
    .worker .detach, .worker (.visit 1), .worker (.unlock 1 none), .worker (.finish 1 none)]

theorem disposition_registered :
    (∃ s, (timelySystem Nat Bool).exec (timelySystem Nat Bool).init (addRun true 1 true) = some s ∧
      s.Quiescent ∧ s.list.head = .node 1 ∧ s.installed = true) ∧
    ∃ s, (timelySystem Nat Bool).exec (timelySystem Nat Bool).init dispatchedRun = some s ∧
      s.Quiescent ∧ s.finished = [(1, 1, .signal)] ∧ s.list.head = .null ∧ s.installed = false := by
  constructor
  · refine ⟨_, rfl, ⟨by decide, rfl⟩, rfl, ?_⟩
    have h := disposition ((timelySystem Nat Bool).reachable_exec (addRun true 1 true) rfl)
    exact (h.1 ⟨by decide, rfl⟩).2 ⟨1, rfl⟩
  · refine ⟨_, rfl, ⟨by decide, rfl⟩, rfl, rfl, ?_⟩
    have h := disposition ((timelySystem Nat Bool).reachable_exec dispatchedRun rfl)
    exact h.2 rfl

/-- A wait is cancelled after the signal was delivered for it, and the next one is registered while
that delivery is dispatched. -/
def strayRun : List (Act Nat Bool) :=
  addRun true 1 true ++ [.deliver true, .remove false 1 .cancel, .remove false 1 .lock,
    .remove false 1 .cut, .remove false 1 (.restore true), .remove false 1 (.unlock true),
    .remove false 1 .finish, .worker .dispatch, .worker (.reset true)] ++ addRun true 2 true ++
    [.worker .lock, .worker .detach, .worker (.visit 2), .worker (.unlock 2 none),
      .worker (.finish 2 none)]

/-- The signal has fired, nobody waits and nothing is in progress, and the handler is installed. -/
theorem handler_left_installed :
    ¬ ∀ (s : State Nat Bool) as, (system Nat Bool).exec (system Nat Bool).init as = some s →
      (∀ a ∈ as, a.succeeds = true) → s.Quiescent →
      (s.installed = true ↔ ∃ i, s.list.head = .node i) := by
  intro h
  obtain ⟨i, hi⟩ := (h _ strayRun rfl (by decide) ⟨by decide, rfl⟩).1 rfl
  cases hi

end Coio.Signal
