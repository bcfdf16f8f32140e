import Coio.Fifo.Steps

namespace Coio.Fifo
open Transition Tally
set_option autoImplicit true

variable [DecidableEq ι] [DecidableEq κ] {limit : Nat} {s t : State α ι κ} {v : View}

/-- No operation is in progress. -/
def State.Quiet (s : State α ι κ) : Prop := ∀ p, s.pc p = .idle

/-- A `try_emplace()` that runs alone fails. -/
def State.TryFails (limit : Nat) (s : State α ι κ) (k : κ) (value : α) : Prop :=
  ∃ t, System.exec ⟨s, step limit⟩ s [.tryStart k (.push value),
    .sema .push (.thread (.thread k) .tryLoad), .tryResult .push k false] = some t

/-- The free slots and the stored elements make up `max_size()`. -/
structure State.Bounded (limit maxSize : Nat) (s : State α ι κ) : Prop where
  balance : s.Quiet → (s.sema .push).counter + s.underlying.length = maxSize
  length : s.underlying.length ≤ maxSize
  full : s.Quiet → ∀ k value, s.TryFails limit k value ↔ s.underlying.length = maxSize
  terminate : ∀ p, (s.sema .push).thread p ≠ .terminate

/-- The fifo holds at most `max_size()` elements more than it started with. -/
theorem Inv.length_le (h : Inv limit n l s v) : s.underlying.length ≤ n + l.length := by
  obtain ⟨w, hw⟩ := h.sema .push
  have hle : (s.sema .push).callers.delivered ≤ n + (s.sema .push).callers.calls :=
    hw.delivered_le
  have hdel := h.delivered .push
  have hcalls : (s.moved .pop).length = (s.sema .push).callers.calls + v.owed .pop := h.calls .pop
  have hlen := h.length_underlying
  omega

theorem Inv.call_of_quiet (h : Inv limit n l s v) (hq : s.Quiet) (d : Kind) (p : Party ι κ) :
    (s.sema d).callers.call p = none := by
  rw [h.call, hq]
  cases p <;> rfl

theorem Inv.thread_idle (h : Inv limit n l s v) (hq : s.Quiet) (p : Party ι κ) :
    (s.sema .push).thread p = .idle :=
  AsyncSemaphore.ThreadPc.idle_of_call (h.call_of_quiet hq .push p)

/-- With no operation in progress a permit of `d` is free, lost or was used by a move, and every
move of the other kind has brought one. -/
theorem Inv.permits (h : Inv limit n l s v) (hq : s.Quiet) (d : Kind) :
    (s.sema d).counter + (s.moved d).length + v.lost d =
      Fifo.permits n l d + (s.moved d.other).length := by
  obtain ⟨w, hw⟩ := h.sema d
  have hb : ∀ i, (s.sema d).callers.busy i = false := fun i => by
    rw [h.busy, hq]
    rfl
  have hcount : (s.sema d).counter + (s.sema d).callers.delivered =
      Fifo.permits n l d + (s.sema d).callers.calls :=
    hw.counter_of_quiet hb (h.call_of_quiet hq d)
  have htaken := (h.taken d).unique (Total.zero.congr fun p => by rw [hq]; rfl)
  have howed := (h.owed d.other).unique (Total.zero.congr fun p => by rw [hq]; rfl)
  have hdel := h.delivered d
  have hcalls := h.calls d.other
  rw [Kind.other_other] at hcalls
  omega

theorem Inv.balance (h : Inv limit n l s v) (hq : s.Quiet) :
    (s.sema .push).counter + s.underlying.length + v.lost .push = n + l.length := by
  have hpermits : (s.sema .push).counter + (s.moved .push).length + v.lost .push =
      n + (s.moved .pop).length := h.permits hq .push
  have hlen := h.length_underlying
  omega

/-- With no operation in progress the items that `empty_sema_` counts are the stored ones. -/
theorem Inv.available (h : Inv limit n l s v) (hq : s.Quiet) :
    (s.sema .pop).counter + v.lost .pop = s.underlying.length := by
  have hpermits : (s.sema .pop).counter + (s.moved .pop).length + v.lost .pop =
      l.length + (s.moved .push).length := h.permits hq .pop
  have hlen := h.length_underlying
  omega

/-- A `release()` of `full_sema_` finds room in the counter. -/
theorem Inv.counter_lt (h : Inv limit n l s v) (hp : ((s.sema .push).thread p).pending = 1) :
    (s.sema .push).counter < n + l.length := by
  obtain ⟨w, hw⟩ := h.sema .push
  have hpending := hw.calls.le p
  have hbalance : (s.sema .push).counter + (s.sema .push).grants = n + (s.sema .push).releases :=
    hw.balance
  have hgrants := hw.delivered
  have hdel : (s.sema .push).delivered = (s.moved .push).length + v.taken .push + v.lost .push :=
    h.delivered .push
  have hcalls : (s.moved .pop).length = (s.sema .push).calls + v.owed .pop := h.calls .pop
  have hlen := h.length_underlying
  omega

theorem sema_of_map {f : State α ι κ → State α ι κ} (hs : (s.semaStep limit e b).map f = some t)
    (hf : ∀ r, (f r).sema = r.sema) (d : Kind) :
    t.sema d = s.sema d ∨ ∃ b, AsyncSemaphore.step limit (s.sema d) b = some (t.sema d) := by
  obtain ⟨u, hu, rfl⟩ := semaStep_map hs
  rw [hf]
  by_cases hd : d = e
  · subst hd
    exact .inr ⟨b, by simpa using hu⟩
  · exact .inl (Function.update_of_ne hd ..)

/-- A step of the fifo leaves each semaphore alone or is a step of it. -/
theorem sema_of_step (hs : step limit s a = some t) (d : Kind) :
    t.sema d = s.sema d ∨ ∃ b, AsyncSemaphore.step limit (s.sema d) b = some (t.sema d) := by
  cases a with
  | close =>
    simp only [step] at hs
    obtain ⟨r, hr, hs⟩ := Option.bind_eq_some_iff.1 hs
    obtain ⟨u, hu, rfl⟩ := semaStep_map hs
    obtain ⟨u', hu', rfl⟩ := semaStep_eq hr
    cases d with
    | push => exact .inr ⟨_, hu'⟩
    | pop => exact .inr ⟨_, hu⟩
  | sema e a =>
    obtain ⟨-, hs⟩ := Option.ite_none_right_eq_some.1 hs
    exact sema_of_map (f := id) (by rw [Option.map_id]; exact hs) (fun _ => rfl) d
  | acquired e i =>
    simp only [step] at hs
    exact sema_of_map hs (fun _ => rfl) d
  | stopped e i b =>
    simp only [step] at hs
    exact sema_of_map hs (fun _ => rfl) d
  | tryResult e k b =>
    simp only [step] at hs
    exact sema_of_map hs (fun _ => by cases b <;> rfl) d
  | update p =>
    simp only [step] at hs
    split at hs
    · rename_i job _
      obtain rfl := Option.some.inj hs
      cases job with
      | push x => exact .inl rfl
      | pop =>
        simp only [State.move]
        split <;> exact .inl rfl
    · cases hs
  | lock p =>
    simp only [step] at hs
    split at hs
    · obtain ⟨-, rfl⟩ := enabled_iff.1 hs
      exact .inl rfl
    · cases hs
  | unlock p =>
    simp only [step] at hs
    split at hs
    · obtain rfl := Option.some.inj hs
      exact .inl rfl
    · cases hs
  | refuse i job =>
    simp only [step] at hs
    split at hs
    · obtain rfl := Option.some.inj hs
      exact .inl rfl
    · cases hs
  | _ =>
    simp only [step] at hs
    split at hs
    · exact sema_of_map hs (fun _ => rfl) d
    · cases hs

theorem not_terminate (hn : n ≤ limit) (h : (system α ι κ limit n []).Reachable s)
    (p : Party ι κ) : (s.sema .push).thread p ≠ .terminate := by
  induction h with
  | init => nofun
  | step hr hs ih =>
    obtain ⟨v, -, hv⟩ := Inv.reachable (l := []) hn (Nat.zero_le limit) hr
    intro ht
    rcases sema_of_step hs .push with he | ⟨b, hb⟩
    · exact ih (he ▸ ht)
    · rcases AsyncSemaphore.terminate_of_step hb ht with hp | ⟨hc, hp⟩
      · exact ih hp
      · have hlt := hv.counter_lt hp
        simp only [List.length_nil, Nat.add_zero] at hlt
        omega

/-- A lone `try_emplace()` fails exactly when it reads no free slot. -/
theorem tryFails_iff (hq : s.Quiet) (hc : ∀ p, (s.sema .push).thread p = .idle) :
    s.TryFails limit k x ↔ (s.sema .push).counter = 0 := by
  have hk := hc (.thread k)
  have hp := hq (.thread k)
  simp only [State.TryFails, System.exec, step, hp, Job.kind, State.semaStep, AsyncSemaphore.step,
    AsyncSemaphore.threadStep, hk]
  by_cases h0 : (s.sema .push).counter = 0
  · simp [h0, State.begin, State.goto, AsyncSemaphore.Act.internal]
  · simp [h0, State.begin, State.goto, AsyncSemaphore.Act.internal]

/-- The capacity holds of every run if and only if the fifo starts empty: `full_sema_` does not know
of the elements that the queue starts with. -/
theorem capacity_iff {l : List α} (hn : n ≤ limit) (hl : l.length ≤ n) :
    (∀ s, (system α ι κ limit n l).Reachable s → s.Bounded limit n) ↔ l = [] := by
  constructor
  · intro h
    have hb := (h _ .init).balance fun _ => rfl
    have hlen : n + l.length = n := hb
    exact List.eq_nil_of_length_eq_zero (by omega)
  · rintro rfl s hs
    obtain ⟨v, hlost, hv⟩ := Inv.reachable (l := []) hn (Nat.zero_le limit) hs
    have hb : s.Quiet → (s.sema .push).counter + s.underlying.length = n := fun hq => by
      simpa [hlost] using hv.balance hq
    refine ⟨hb, hv.length_le, fun hq k x => ?_, not_terminate hn hs⟩
    have hb := hb hq
    rw [tryFails_iff hq (hv.thread_idle hq)]
    omega

theorem capacity_iff_one : 1 ≤ 1 ∧
    ¬ ∀ s, (system Nat Nat Nat 1 1 [7]).Reachable s → s.Bounded 1 1 :=
  ⟨Nat.le_refl 1, fun h => nomatch (capacity_iff (l := [7]) (Nat.le_refl 1) (Nat.le_refl 1)).1 h⟩

/-- The first pop from a queue that is unbounded and starts with one element. -/
def popRun : List (Act Nat Nat Nat) :=
  [.tryStart 0 .pop, .sema .pop (.thread (.thread 0) .tryLoad),
    .sema .pop (.thread (.thread 0) (.tryCas 1 false)), .tryResult .pop 0 true, .lock (.thread 0),
    .update (.thread 0), .unlock (.thread 0), .release (.thread 0),
    .sema .push (.thread (.thread 0) .lock), .sema .push (.thread (.thread 0) .pop),
    .sema .push (.thread (.thread 0) .load)]

theorem pop_terminates : ¬ ∀ s,
    (system Nat Nat Nat 18446744073709551615 18446744073709551615 [7]).Reachable s →
      s.Bounded 18446744073709551615 18446744073709551615 := by
  intro h
  have hr := (system Nat Nat Nat 18446744073709551615 18446744073709551615 [7]).reachable_exec
    popRun rfl
  exact (h _ hr).terminate (.thread 0) rfl

end Coio.Fifo
