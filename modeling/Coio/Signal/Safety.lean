import Coio.Signal.Steps

namespace Coio.Signal
open Transition
set_option autoImplicit true

/-- The waiter that `pop_all` works on. -/
def WorkerPc.visiting : WorkerPc ι → Option ι
  | .visit waiter | .unlock waiter _ | .finish waiter _ => some waiter
  | _ => none

/-- A cancellation has removed the waiter, and what is left of it is to finish it. -/
def State.Removed (s : State ι κ) (i : ι) : Prop := ∃ k, (s.pc k).taken = some i

/-- The waiters of the list that a dispatch is about to detach. -/
def State.Detaching (s : State ι κ) (i : ι) : Prop :=
  s.worker = .detach ∧ Linked.Reaches s.list.next s.list.head.node? i

variable [DecidableEq ι] [DecidableEq κ] {s t : State ι κ} {v : View ι κ}

theorem registrations_le (hs : step s a = some t) (i : ι) :
    s.registrations i ≤ t.registrations i := by
  cases a with
  | deliver written =>
    obtain ⟨-, rfl⟩ := enabled_iff.1 hs
    exact Nat.le_refl _
  | add k j a =>
    cases a with
    | install success =>
      obtain ⟨-, hs⟩ := Option.ite_none_right_eq_some.1 hs
      split at hs <;> obtain rfl := Option.some.inj hs <;> exact Nat.le_refl _
    | link =>
      obtain ⟨-, rfl⟩ := enabled_iff.1 hs
      show s.registrations i ≤ Function.update s.registrations j (s.registrations j + 1) i
      by_cases hi : i = j
      · rw [hi, Function.update_self]
        exact Nat.le_succ _
      · exact Nat.le_of_eq (Function.update_of_ne hi ..).symm
    | _ =>
      obtain ⟨-, rfl⟩ := enabled_iff.1 hs
      exact Nat.le_refl _
  | remove k j a =>
    cases a with
    | cut =>
      obtain ⟨-, hs⟩ := Option.ite_none_right_eq_some.1 hs
      split at hs <;> obtain rfl := Option.some.inj hs <;> exact Nat.le_refl _
    | _ =>
      obtain ⟨-, rfl⟩ := enabled_iff.1 hs
      exact Nat.le_refl _
  | worker a =>
    cases a <;> obtain ⟨-, rfl⟩ := enabled_iff.1 hs <;> exact Nat.le_refl _

/-- A list that has fired stays so. -/
theorem Inv.fired_step (h : Inv s v) (hs : Signal.step s a = some t) (hh : s.list.head = .null) :
    t.list.head = .null := by
  cases a with
  | deliver written =>
    obtain ⟨-, rfl⟩ := enabled_iff.1 hs
    exact hh
  | add k j a =>
    cases a with
    | install success =>
      obtain ⟨-, hs⟩ := Option.ite_none_right_eq_some.1 hs
      split at hs <;> obtain rfl := Option.some.inj hs <;> exact hh
    | link =>
      obtain ⟨hp, -⟩ := enabled_iff.1 hs
      exact absurd hh (h.link k j hp)
    | _ =>
      obtain ⟨-, rfl⟩ := enabled_iff.1 hs
      exact hh
  | remove k j a =>
    cases a with
    | cut =>
      obtain ⟨-, hs⟩ := Option.ite_none_right_eq_some.1 hs
      have hw := WaitingList.head_remove (x := j) hh
      split at hs <;> rename_i he <;> obtain rfl := Option.some.inj hs
      · rwa [he] at hw
      · exact hh
    | _ =>
      obtain ⟨-, rfl⟩ := enabled_iff.1 hs
      exact hh
  | worker a =>
    cases a with
    | visit waiter =>
      obtain ⟨-, rfl⟩ := enabled_iff.1 hs
      exact (s.list.head_visit waiter).trans hh
    | _ =>
      obtain ⟨-, rfl⟩ := enabled_iff.1 hs
      first | exact hh | rfl

/-- Only the watchdog moves itself. -/
theorem worker_of_step (hs : step s a = some t) : (∃ b, a = .worker b) ∨ t.worker = s.worker := by
  cases a with
  | worker b => exact .inl ⟨b, rfl⟩
  | deliver written =>
    obtain ⟨-, rfl⟩ := enabled_iff.1 hs
    exact .inr rfl
  | add k j a =>
    cases a with
    | install success =>
      obtain ⟨-, hs⟩ := Option.ite_none_right_eq_some.1 hs
      split at hs <;> obtain rfl := Option.some.inj hs <;> exact .inr rfl
    | _ =>
      obtain ⟨-, rfl⟩ := enabled_iff.1 hs
      exact .inr rfl
  | remove k j a =>
    cases a with
    | cut =>
      obtain ⟨-, hs⟩ := Option.ite_none_right_eq_some.1 hs
      split at hs <;> obtain rfl := Option.some.inj hs <;> exact .inr rfl
    | _ =>
      obtain ⟨-, rfl⟩ := enabled_iff.1 hs
      exact .inr rfl

/-- A dispatch that is about to detach the list marks the signal as fired. -/
theorem detach_step (hs : step s a = some t) (hw : s.worker = .detach) :
    t.worker = .detach ∨ t.list.head = .null := by
  rcases worker_of_step hs with ⟨b, rfl⟩ | ht
  · cases b with
    | detach =>
      obtain ⟨-, rfl⟩ := enabled_iff.1 hs
      exact .inr rfl
    | dispatch => simp [step, workerStep, hw] at hs
    | lock => simp [step, workerStep, hw] at hs
    | relock => simp [step, workerStep, hw] at hs
    | _ =>
      obtain ⟨hp, -⟩ := enabled_iff.1 hs
      rw [hw] at hp
      cases hp
  · exact .inl (ht.trans hw)

/-- What holds along a run that starts when a dispatch detaches the list. -/
theorem exec_detach {as : List (Act ι κ)} (hr : (system ι κ).Reachable s)
    (he : (system ι κ).exec s as = some t) :
    (∀ i, s.registrations i ≤ t.registrations i) ∧
    (s.list.head = .null → t.list.head = .null) ∧
    (s.worker = .detach → t.worker = .detach ∨ t.list.head = .null) := by
  induction as generalizing s with
  | nil =>
    cases he
    exact ⟨fun _ => Nat.le_refl _, id, .inl⟩
  | cons a as ih =>
    obtain ⟨u, hu, he⟩ := Option.bind_eq_some_iff.1 he
    obtain ⟨v, hv⟩ := Inv.reachable hr
    obtain ⟨hreg, hnull, hdetach⟩ := ih (hr.step hu) he
    refine ⟨fun i => Nat.le_trans (registrations_le hu i) (hreg i),
      fun hh => hnull (hv.fired_step hu hh), fun hw => ?_⟩
    exact (detach_step hu hw).elim hdetach fun hh => .inr (hnull hh)

omit [DecidableEq κ] in
/-- The waiter that `pop_all` works on is the first one of the rest of its list, or is cut off. -/
theorem Inv.place_visiting (h : Inv s v) (hi : s.worker.visiting = some i) :
    v.place i = .listed ∨ v.place i = .held := by
  cases hw : s.worker with
  | visit waiter =>
    rw [hw] at hi
    obtain rfl := Option.some.inj hi
    have hn : s.list.head = .null := by
      by_contra hn
      exact (h.opened hn).2 (by rw [hw]; trivial)
    have hfront := h.closed hn
    rw [hw] at hfront
    exact .inl ((h.listed waiter).1 (List.mem_of_mem_head? hfront.symm))
  | unlock waiter next =>
    rw [hw] at hi
    obtain rfl := Option.some.inj hi
    exact .inr ((h.held waiter).1 (by rw [hw]; rfl))
  | finish waiter next =>
    rw [hw] at hi
    obtain rfl := Option.some.inj hi
    exact .inr ((h.held waiter).1 (by rw [hw]; rfl))
  | _ =>
    rw [hw] at hi
    cases hi

omit [DecidableEq ι] [DecidableEq κ] in
/-- Once a dispatch has returned, only a cancellation can be about to finish a waiter. -/
theorem Inv.finished_or_removed (h : Inv s v) (hw : s.worker = .idle) (hn : s.list.head = .null)
    (hg : 0 < g) (hle : g ≤ s.registrations i) :
    s.Finished i g ∨ s.Removed i ∧ s.registrations i = g := by
  rcases h.unfinished i g hg hle with hf | ⟨rfl, hp⟩
  · exact .inl hf
  · refine .inr ⟨?_, rfl⟩
    cases hplace : v.place i with
    | nobody => rw [hplace] at hp; cases hp
    | adding k => rw [hplace] at hp; cases hp
    | listed =>
      have hi := (h.listed i).2 hplace
      rw [h.list_nil hw hn] at hi
      cases hi
    | held =>
      have hi := (h.held i).2 hplace
      rw [hw] at hi
      cases hi
    | taken k => exact ⟨k, (h.taken k i).2 hplace⟩

/-- Safety of signal waits, in every interleaving: a registration is finished at most once,
`pop_all` only works on waiters that nobody has finished or is about to, a list that fires stays so
and later waits complete with the number of the signal, and when a dispatch has returned each waiter
that it detached is finished or was removed by a cancellation that finishes it next. -/
theorem waiters_safety (h : (system ι κ).Reachable s) :
    (s.finished.map fun r => (r.1, r.2.1)).Nodup ∧
    (∀ i g, s.Finished i g → 0 < g ∧ g ≤ s.registrations i) ∧
    (∀ i, s.worker.visiting = some i → 0 < s.registrations i ∧
      ¬ s.Finished i (s.registrations i) ∧ ¬ s.Removed i) ∧
    (∀ k i r, s.pc k = .add (.unlock r) i → s.late k = true → r = .fired) ∧
    ∀ as t, (system ι κ).exec s as = some t →
      (s.list.head = .null → t.list.head = .null) ∧
      (s.worker = .detach → t.worker = .idle → t.list.head = .null) ∧
      (t.worker = .idle → ∀ i, s.Detaching i →
        t.Finished i (s.registrations i) ∨
          t.Removed i ∧ t.registrations i = s.registrations i) := by
  obtain ⟨v, hv⟩ := Inv.reachable h
  refine ⟨hv.once, fun i g ⟨r, hr⟩ => ⟨(hv.finished i g r hr).1, (hv.finished i g r hr).2.1⟩,
    fun i hi => ?_, fun k i r hp hk => ?_, fun as t he => ?_⟩
  · have hplace := hv.place_visiting hi
    have hpending : (v.place i).Pending := by
      rcases hplace with hp | hp <;> rw [hp] <;> trivial
    refine ⟨hv.registered i hpending, ?_, ?_⟩
    · rintro ⟨r, hr⟩
      exact (hv.finished i _ r hr).2.2 rfl hpending
    · rintro ⟨k, hk⟩
      have ht := (hv.taken k i).1 hk
      rcases hplace with hp | hp <;> rw [hp] at ht <;> cases ht
  · have hlate := (hv.late k hk).1
    rw [hp] at hlate
    cases r with
    | fired => rfl
    | registered => cases hlate
    | failed => cases hlate
  · obtain ⟨hreg, hnull, hdetach⟩ := exec_detach h he
    obtain ⟨w, hw⟩ := Inv.reachable (h.exec as he)
    have hfired : s.worker = .detach → t.worker = .idle → t.list.head = .null := by
      intro hs ht
      rcases hdetach hs with hd | hd
      · rw [ht] at hd
        cases hd
      · exact hd
    refine ⟨hnull, hfired, fun ht i ⟨hd, hi⟩ => ?_⟩
    have hhead : s.list.head.node? = v.list.head? := by
      by_cases hn : s.list.head = .null
      · have hfront := hv.closed hn
        rw [hd] at hfront
        rw [hn]
        exact hfront
      · rw [(hv.opened hn).1, WaitingList.node?_first]
    have hmem := hv.spells.mem_of_reaches (hhead ▸ hi)
    have hpos := hv.registered i (by rw [(hv.listed i).1 hmem]; trivial)
    exact hw.finished_or_removed ht (hfired hd ht) hpos (hreg i)

/-- A wait is registered, as the first one or before another one. -/
def addRun (k : κ) (i : ι) (first : Bool) : List (Act ι κ) :=
  [.add k i .start, .add k i .lock, .add k i .test] ++
    (if first then [.add k i (.install true)] else []) ++
    [.add k i .link, .add k i (.unlock .registered)]

/-- Three waits are registered, and the signal is dispatched. -/
def dispatchRun : List (Act Nat Nat) :=
  addRun 0 1 true ++ addRun 0 2 false ++ addRun 0 3 false ++
    [.deliver true, .worker .dispatch, .worker (.reset true), .worker .lock]

/-- While the first one is finished, the last one is cancelled by a thread that stops right after it
has removed the waiter. -/
def cancelRun : List (Act Nat Nat) :=
  [.worker .detach, .worker (.visit 3), .worker (.unlock 3 (some 2)), .remove 1 1 .cancel,
    .remove 1 1 .lock, .remove 1 1 .cut, .remove 1 1 (.unlock true), .worker (.finish 3 (some 2)),
    .worker (.relock 2), .worker (.visit 2), .worker (.unlock 2 none), .worker (.finish 2 none)]

/-- The dispatch has returned, and the waiter that was cancelled is not finished. -/
theorem unfinished_after_dispatch :
    ¬ ∀ (s t : State Nat Nat) as, (system Nat Nat).Reachable s →
      (system Nat Nat).exec s as = some t → t.worker = .idle →
      ∀ i, s.Detaching i → t.Finished i (s.registrations i) := by
  intro h
  have hr := (system Nat Nat).reachable_exec dispatchRun rfl
  obtain ⟨r, hr⟩ := h _ _ cancelRun hr rfl rfl 1 ⟨rfl, 3, rfl, .head rfl (.head rfl .refl)⟩
  exact absurd hr (by cases r <;> decide)

theorem waiters_safety_sample : ∃ s t, (system Nat Nat).exec (system Nat Nat).init dispatchRun =
    some s ∧ (system Nat Nat).exec s cancelRun = some t ∧ s.registrations 1 = 1 ∧
      (t.Finished 1 1 ∨ t.Removed 1 ∧ t.registrations 1 = 1) := by
  refine ⟨_, _, rfl, rfl, rfl, ?_⟩
  have hr := (system Nat Nat).reachable_exec dispatchRun rfl
  exact ((waiters_safety hr).2.2.2.2 cancelRun _ rfl).2.2 rfl 1
    ⟨rfl, 3, rfl, .head rfl (.head rfl .refl)⟩

end Coio.Signal
