import Coio.Fifo.Invariant

namespace Coio.Fifo
open Transition Tally
open AsyncSemaphore (Call Callers)
set_option autoImplicit true

variable [DecidableEq ι] [DecidableEq κ] {limit : Nat} {s t : State α ι κ} {v : View}

attribute [local grind =] Function.update_apply Pc.acquiring Party.call Pc.Locked Pc.taken Pc.owed
  Pc.held Pc.busy Pc.granted Job.kind State.movedBy Kind.other_inj

/-- An asynchronous operation starts to acquire its permit. -/
theorem Inv.start (h : Inv limit n l s v) (hs : step limit s (.start i job b) = some t) :
    Inv limit n l t v := by
  simp only [step] at hs
  split at hs
  · rename_i hp
    obtain ⟨u, hu, rfl⟩ := semaStep_map hs
    have hsema := h.sema_step hu
    obtain ⟨hb, hc⟩ := AsyncSemaphore.callers_start hu
    obtain ⟨hbusy, hcall, hdel, hcalls⟩ := callers_update (f := s.sema) (d := job.kind) hc
    clear hs hc hu
    simp only [State.begin, State.goto]
    exact { h with
      sema := hsema
      busy := by have := h.busy; grind
      call := by have := h.call; grind
      mtx := by have := h.mtx; grind
      taken := fun e => (h.taken e).update (by grind)
      owed := fun e => (h.owed e).update (by grind)
      delivered := by have := h.delivered; grind
      calls := by have := h.calls; grind
      results := by have := h.results; grind
      starts := by have := h.starts; grind }
  · cases hs

theorem Inv.refuse (h : Inv limit n l s v) (hs : step limit s (.refuse i job) = some t) :
    Inv limit n l t v := by
  simp only [step] at hs
  split at hs
  · rename_i hp
    obtain rfl := Option.some.inj hs
    clear hs
    simp only [State.begin, State.goto, State.fail, Function.update_idem]
    exact { h with
      busy := by have := h.busy; grind
      call := by have := h.call; grind
      mtx := by have := h.mtx; grind
      taken := fun e => (h.taken e).update (by grind)
      owed := fun e => (h.owed e).update (by grind)
      results := by have := h.results; grind
      starts := by have := h.starts; grind }
  · cases hs

/-- An operation gets its permit inside `start()`. -/
theorem Inv.acquired (h : Inv limit n l s v) (hs : step limit s (.acquired d i) = some t) :
    ∃ w, w.lost = v.lost ∧ Inv limit n l t w := by
  obtain ⟨u, hu, rfl⟩ := semaStep_map hs
  have hsema := h.sema_step hu
  obtain ⟨hb, hc⟩ := AsyncSemaphore.callers_complete hu
  obtain ⟨hbusy, hcall, hdel, hcalls⟩ := callers_update (f := s.sema) (d := d) hc
  obtain ⟨job, hp, rfl⟩ := h.acquiring hb
  clear hs hc hu
  simp only [State.goto, hp, Pc.granted]
  refine ⟨{ v with taken := Function.update v.taken job.kind (v.taken job.kind + 1) }, rfl, { h with
    sema := hsema
    busy := by have := h.busy; grind
    call := by have := h.call; grind
    mtx := by have := h.mtx; grind
    taken := fun e => (h.taken e).update (by grind)
    owed := fun e => (h.owed e).update (by grind)
    delivered := by have := h.delivered; grind [AsyncSemaphore.Outcome.permit]
    calls := by have := h.calls; grind
    results := by have := h.results; grind
    starts := by have := h.starts; grind }⟩

/-- An operation is cancelled. -/
theorem Inv.stopped (h : Inv limit n l s v) (hs : step limit s (.stopped d i b) = some t) :
    Inv limit n l t v := by
  obtain ⟨u, hu, rfl⟩ := semaStep_map hs
  have hsema := h.sema_step hu
  obtain ⟨w, hw⟩ := h.sema d
  have hc : (s.sema d).callers.busy i = true ∧ u.callers = { (s.sema d).callers with
      busy := Function.update (s.sema d).callers.busy i false } := by
    cases b with
    | true => exact hw.callers_setStopped hu
    | false => exact AsyncSemaphore.callers_complete hu
  obtain ⟨hb, hc⟩ := hc
  obtain ⟨hbusy, hcall, hdel, hcalls⟩ := callers_update (f := s.sema) (d := d) hc
  obtain ⟨job, hp, rfl⟩ := h.acquiring hb
  clear hs hc hu hw
  simp only [State.fail, State.goto]
  exact { h with
    sema := hsema
    busy := by have := h.busy; grind
    call := by have := h.call; grind
    mtx := by have := h.mtx; grind
    taken := fun e => (h.taken e).update (by grind)
    owed := fun e => (h.owed e).update (by grind)
    delivered := by have := h.delivered; grind
    calls := by have := h.calls; grind
    results := by have := h.results; grind
    starts := by have := h.starts; grind }

theorem Inv.tryStart (h : Inv limit n l s v) (hs : step limit s (.tryStart k job) = some t) :
    Inv limit n l t v := by
  simp only [step] at hs
  split at hs
  · rename_i hp
    obtain ⟨u, hu, rfl⟩ := semaStep_map hs
    have hsema := h.sema_step hu
    obtain ⟨hb, hc⟩ := AsyncSemaphore.callers_tryAcquire hu
    obtain ⟨hbusy, hcall, hdel, hcalls⟩ := callers_update (f := s.sema) (d := job.kind) hc
    clear hs hc hu
    simp only [State.begin, State.goto]
    exact { h with
      sema := hsema
      busy := by have := h.busy; grind
      call := by have := h.call; grind
      mtx := by have := h.mtx; grind
      taken := fun e => (h.taken e).update (by grind)
      owed := fun e => (h.owed e).update (by grind)
      delivered := by have := h.delivered; grind
      calls := by have := h.calls; grind
      results := by have := h.results; grind
      starts := by have := h.starts; grind }
  · cases hs

/-- `try_acquire()` returns. -/
theorem Inv.tryResult (h : Inv limit n l s v) (hs : step limit s (.tryResult d k b) = some t) :
    ∃ w, w.lost = v.lost ∧ Inv limit n l t w := by
  obtain ⟨u, hu, rfl⟩ := semaStep_map hs
  have hsema := h.sema_step hu
  obtain ⟨hb, hc⟩ := AsyncSemaphore.callers_takeResult hu
  obtain ⟨hbusy, hcall, hdel, hcalls⟩ := callers_update (f := s.sema) (d := d) hc
  obtain ⟨job, hp, rfl⟩ := h.trying hb
  clear hs hc hu
  cases b with
  | true =>
    simp only [State.goto, hp, Pc.granted, if_true]
    refine ⟨{ v with taken := Function.update v.taken job.kind (v.taken job.kind + 1) }, rfl,
      { h with
      sema := hsema
      busy := by have := h.busy; grind
      call := by have := h.call; grind
      mtx := by have := h.mtx; grind
      taken := fun e => (h.taken e).update (by grind)
      owed := fun e => (h.owed e).update (by grind)
      delivered := by have := h.delivered; grind
      calls := by have := h.calls; grind
      results := by have := h.results; grind
      starts := by have := h.starts; grind }⟩
  | false =>
    simp only [State.fail, State.goto, Bool.false_eq_true, if_false]
    refine ⟨v, rfl, { h with
      sema := hsema
      busy := by have := h.busy; grind
      call := by have := h.call; grind
      mtx := by have := h.mtx; grind
      taken := fun e => (h.taken e).update (by grind)
      owed := fun e => (h.owed e).update (by grind)
      delivered := by have := h.delivered; grind
      calls := by have := h.calls; grind
      results := by have := h.results; grind
      starts := by have := h.starts; grind }⟩

theorem Inv.lock (h : Inv limit n l s v) (hs : step limit s (.lock p) = some t) :
    Inv limit n l t v := by
  simp only [step] at hs
  split at hs
  · rename_i job hp
    obtain ⟨hm, rfl⟩ := enabled_iff.1 hs
    clear hs
    simp only [State.goto]
    exact { h with
      busy := by have := h.busy; grind
      call := by have := h.call; grind
      mtx := by have := h.mtx; grind
      taken := fun e => (h.taken e).update (by grind)
      owed := fun e => (h.owed e).update (by grind)
      results := by have := h.results; grind
      starts := by have := h.starts; grind }
  · cases hs

theorem Inv.unlock (h : Inv limit n l s v) (hs : step limit s (.unlock p) = some t) :
    Inv limit n l t v := by
  simp only [step] at hs
  split at hs
  · rename_i d value hp
    obtain rfl := Option.some.inj hs
    have hm := (h.mtx p).2 (by simp [hp, Pc.Locked])
    clear hs
    simp only [State.goto]
    exact { h with
      busy := by have := h.busy; grind
      call := by have := h.call; grind
      mtx := by have := h.mtx; grind
      taken := fun e => (h.taken e).update (by grind)
      owed := fun e => (h.owed e).update (by grind)
      results := by have := h.results; grind
      starts := by have := h.starts; grind }
  · cases hs

/-- The number of elements that a fifo with permits for `maxSize` elements holds. -/
theorem Inv.length_underlying (h : Inv limit n l s v) :
    s.underlying.length + (s.moved .pop).length = l.length + (s.moved .push).length := by
  have := congrArg List.length h.order
  simp only [List.length_append, List.length_map] at this
  omega

/-- The permits of `empty_sema_` are bounded by the elements. -/
theorem Inv.taken_pop_le (h : Inv limit n l s v) :
    v.taken .pop + v.owed .push ≤ s.underlying.length := by
  obtain ⟨w, hw⟩ := h.sema .pop
  have hle : (s.sema .pop).callers.delivered ≤ l.length + (s.sema .pop).callers.calls :=
    hw.delivered_le
  have hdel := h.delivered .pop
  have hcalls : (s.moved .push).length = (s.sema .pop).callers.calls + v.owed .push :=
    h.calls .push
  have hlen := h.length_underlying
  omega

/-- An operation moves its element: a push adds it at the back, and a pop finds one at the front. -/
theorem Inv.update (h : Inv limit n l s v) (hs : step limit s (.update p) = some t) :
    ∃ w, w.lost = v.lost ∧ Inv limit n l t w := by
  simp only [step] at hs
  split at hs
  · rename_i job hp
    obtain rfl := Option.some.inj hs
    clear hs
    have htaken := (h.taken job.kind).le p
    simp only [hp, Pc.taken, if_true] at htaken
    cases job with
    | push x =>
      simp only [State.move, State.goto]
      simp only [Job.kind] at htaken
      refine ⟨{ taken := Function.update v.taken .push (v.taken .push - 1)
                owed := Function.update v.owed .push (v.owed .push + 1)
                lost := v.lost }, rfl, { h with
        busy := by have := h.busy; grind
        call := by have := h.call; grind
        mtx := by have := h.mtx; grind
        taken := fun e => (h.taken e).update (by grind)
        owed := fun e => (h.owed e).update (by grind)
        delivered := by have := h.delivered; grind
        calls := by have := h.calls; grind
        order := by
          have := h.order
          simp only [Function.update_self, List.map_append, List.map_cons, List.map_nil,
            ← List.append_assoc, this]
          rfl
        results := by
          have := h.results
          simp only [State.movedBy, filter_movedBy] at this ⊢
          grind
        starts := by have := h.starts; grind }⟩
    | pop =>
      simp only [Job.kind] at htaken
      have hle := h.taken_pop_le
      cases hq : s.underlying with
      | nil => simp only [hq, List.length_nil] at hle; omega
      | cons x rest =>
        simp only [State.move, State.goto, hq]
        refine ⟨{ taken := Function.update v.taken .pop (v.taken .pop - 1)
                  owed := Function.update v.owed .pop (v.owed .pop + 1)
                  lost := v.lost }, rfl, { h with
          busy := by have := h.busy; grind
          call := by have := h.call; grind
          mtx := by have := h.mtx; grind
          taken := fun e => (h.taken e).update (by grind)
          owed := fun e => (h.owed e).update (by grind)
          delivered := by have := h.delivered; grind
          calls := by have := h.calls; grind
          order := by
            have horder := h.order
            rw [hq] at horder
            simpa using horder
          results := by
            have := h.results
            simp only [State.movedBy, filter_movedBy] at this ⊢
            grind
          starts := by have := h.starts; grind }⟩
  · cases hs

/-- An operation calls `release()` on the other semaphore. -/
theorem Inv.release (h : Inv limit n l s v) (hs : step limit s (.release p) = some t) :
    ∃ w, w.lost = v.lost ∧ Inv limit n l t w := by
  simp only [step] at hs
  split at hs
  · rename_i d x hp
    obtain ⟨u, hu, rfl⟩ := semaStep_map hs
    have hsema := h.sema_step hu
    obtain ⟨hb, hc⟩ := AsyncSemaphore.callers_release hu
    obtain ⟨hbusy, hcall, hdel, hcalls⟩ := callers_update (f := s.sema) (d := d.other) hc
    have howed := (h.owed d).le p
    simp only [hp, Pc.owed, if_true] at howed
    clear hs hc hu
    simp only [State.goto]
    refine ⟨{ v with owed := Function.update v.owed d (v.owed d - 1) }, rfl, { h with
      sema := hsema
      busy := by have := h.busy; grind
      call := by have := h.call; grind
      mtx := by have := h.mtx; grind
      taken := fun e => (h.taken e).update (by grind)
      owed := fun e => (h.owed e).update (by grind)
      delivered := by have := h.delivered; grind
      calls := by have := h.calls; grind
      results := by have := h.results; grind
      starts := by have := h.starts; grind }⟩
  · cases hs

/-- An operation that succeeds hands its element over. -/
theorem results_succeed {r : Kind → Party ι κ → List α} {f : Kind → Party ι κ → List α}
    {pc : Party ι κ → Pc α} (h : ∀ e q, f e q = r e q ++ (pc q).held e)
    (hp : pc p = .releasing d x) (e : Kind) (q : Party ι κ) :
    f e q = Function.update r d (Function.update (r d) p (r d p ++ [x])) e q ++
      (Function.update pc p .idle q).held e := by
  have hq := h e q
  by_cases he : e = d
  · subst he
    by_cases hqp : q = p
    · subst hqp
      simpa [hp, Pc.held] using hq
    · simpa [hqp] using hq
  · by_cases hqp : q = p
    · subst hqp
      simpa [he, hp, Pc.held, Ne.symm he] using hq
    · simpa [he, hqp] using hq

theorem starts_succeed {r : Kind → Party ι κ → List α} {f g : Party ι κ → Nat}
    {pc : Party ι κ → Pc α}
    (h : ∀ q, f q = (r .push q).length + (r .pop q).length + g q + (pc q).busy)
    (hp : pc p = .releasing d x) (q : Party ι κ) :
    let r := Function.update r d (Function.update (r d) p (r d p ++ [x]))
    f q = (r .push q).length + (r .pop q).length + g q + (Function.update pc p .idle q).busy := by
  have hq := h q
  by_cases hqp : q = p
  · subst hqp
    cases d <;> simp [hp, Pc.busy] at hq ⊢ <;> omega
  · cases d <;> simpa [hqp] using hq

/-- `release()` returns and with it the operation. -/
theorem Inv.released (h : Inv limit n l s v) (hs : step limit s (.released p) = some t) :
    Inv limit n l t v := by
  simp only [step] at hs
  split at hs
  · rename_i d x hp
    obtain ⟨u, hu, rfl⟩ := semaStep_map hs
    have hsema := h.sema_step hu
    obtain ⟨hb, hc⟩ := AsyncSemaphore.callers_unlock hu
    obtain ⟨hbusy, hcall, hdel, hcalls⟩ := callers_update (f := s.sema) (d := d.other) hc
    clear hs hc hu
    simp only [State.succeed, State.goto]
    exact { h with
      sema := hsema
      busy := by have := h.busy; grind
      call := by have := h.call; grind
      mtx := by have := h.mtx; grind
      taken := fun e => (h.taken e).update (by grind)
      owed := fun e => (h.owed e).update (by grind)
      delivered := by have := h.delivered; grind
      calls := by have := h.calls; grind
      results := results_succeed h.results hp
      starts := starts_succeed h.starts hp }
  · cases hs

/-- `release()` completes the operation that waited for the permit, and returns. -/
theorem Inv.handOver (h : Inv limit n l s v) (hs : step limit s (.handOver p i) = some t) :
    ∃ w, w.lost = v.lost ∧ Inv limit n l t w := by
  simp only [step] at hs
  split at hs
  · rename_i d x hp
    obtain ⟨u, hu, rfl⟩ := semaStep_map hs
    have hsema := h.sema_step hu
    obtain ⟨w, hw⟩ := h.sema d.other
    obtain ⟨hb, hi, hc⟩ := hw.callers_setValue hu
    obtain ⟨hbusy, hcall, hdel, hcalls⟩ := callers_update (f := s.sema) (d := d.other) hc
    obtain ⟨job, hpi, hjob⟩ := h.acquiring hi
    have hne : Party.op d.other i ≠ p := fun he => by simp [← he, hpi] at hp
    clear hs hc hu hw
    simp only [State.succeed, State.goto, Function.update_of_ne hne, hpi, Pc.granted]
    have hresults := results_succeed h.results hp
    have hstarts := starts_succeed h.starts hp
    have htaken := fun e => (h.taken e).update (k := p) (v := .idle) (m := v.taken e)
      (by rw [hp]; rfl)
    have howed := fun e => (h.owed e).update (k := p) (v := .idle) (m := v.owed e)
      (by rw [hp]; rfl)
    have hpi' : Function.update s.pc p .idle (.op d.other i) = .acquire job := by
      rw [Function.update_of_ne hne, hpi]
    refine ⟨{ v with taken := Function.update v.taken d.other (v.taken d.other + 1) }, rfl, { h with
      sema := hsema
      busy := by have := h.busy; clear hresults hstarts htaken howed; grind
      call := by have := h.call; clear hresults hstarts htaken howed; grind
      mtx := by have := h.mtx; clear hresults hstarts htaken howed; grind
      taken := fun e => (htaken e).update (by grind)
      owed := fun e => (howed e).update (by grind)
      delivered := by have := h.delivered; clear hresults hstarts htaken howed; grind
      calls := by have := h.calls; clear hresults hstarts htaken howed; grind
      results := fun e q => ?_
      starts := fun q => ?_ }⟩
    · rw [apply_update_of_eq (f := Pc.held e) (by rw [hpi']; rfl)]
      exact hresults e q
    · rw [apply_update_of_eq (f := Pc.busy) (by rw [hpi']; rfl)]
      exact hstarts q
  · cases hs

theorem Inv.close (h : Inv limit n l s v) (hs : step limit s .close = some t) :
    Inv limit n l t v := by
  rw [step] at hs
  obtain ⟨r, hr, hs⟩ := Option.bind_eq_some_iff.1 hs
  obtain ⟨u, hu, rfl⟩ := Option.map_eq_some_iff.1 hs
  exact { (h.semaStep_internal rfl hr).semaStep_internal rfl hu with }

theorem Inv.step (h : Inv limit n l s v) (hs : Fifo.step limit s a = some t) :
    ∃ w, w.lost = v.lost ∧ Inv limit n l t w := by
  cases a with
  | close => exact ⟨v, rfl, h.close hs⟩
  | sema d a =>
    obtain ⟨ha, hs⟩ := Option.ite_none_right_eq_some.1 hs
    exact ⟨v, rfl, h.semaStep_internal ha hs⟩
  | start i job b => exact ⟨v, rfl, h.start hs⟩
  | refuse i job => exact ⟨v, rfl, h.refuse hs⟩
  | acquired d i => exact h.acquired hs
  | stopped d i b => exact ⟨v, rfl, h.stopped hs⟩
  | tryStart k job => exact ⟨v, rfl, h.tryStart hs⟩
  | tryResult d k b => exact h.tryResult hs
  | lock p => exact ⟨v, rfl, h.lock hs⟩
  | update p => exact h.update hs
  | unlock p => exact ⟨v, rfl, h.unlock hs⟩
  | release p => exact h.release hs
  | released p => exact ⟨v, rfl, h.released hs⟩
  | handOver p i => exact h.handOver hs

theorem Inv.reachable (hn : n ≤ limit) (hl : l.length ≤ limit)
    (h : (system α ι κ limit n l).Reachable s) : ∃ v, (∀ d, v.lost d = 0) ∧ Inv limit n l s v := by
  refine System.Invariant.reachable (I := fun s => ∃ v, (∀ d, v.lost d = 0) ∧ Inv limit n l s v)
    ⟨⟨{}, fun _ => rfl, .init hn hl⟩, ?_⟩ h
  rintro s a t - ⟨v, hv, hi⟩ hs
  obtain ⟨w, hw, hi⟩ := hi.step hs
  exact ⟨w, hw ▸ hv, hi⟩

end Coio.Fifo
