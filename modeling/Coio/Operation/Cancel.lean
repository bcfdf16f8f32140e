import Coio.Operation.Phase

namespace Coio
open Transition
set_option autoImplicit true

namespace OperationState

/-- The phase that `request_cancel()` has found when it is at a step. Only its own compare-exchange
leaves the operation `cancelDeferred`. -/
def CancelPc.Sees (seen : Option OperationPhase) : CancelPc → Prop
  | .idle | .load => seen = none
  | .test p => seen = some p ∧ p ≠ .cancelDeferred
  | .inDoCancel => seen = some .armed
  | .returned => seen = some .starting ∨ seen = some .armed ∨ seen = some .completed

/-- The phase in which the stop request took effect. -/
def State.taken (s : State) : Option OperationPhase :=
  match s.cancel with
  | .inDoCancel | .returned => s.seen
  | _ => none

theorem State.taken_of_test {s : State} (h : s.cancel = .test p) : s.taken = none := by
  rw [State.taken, h]

/-- How far a stop request has got, given the phase in which it took effect. -/
structure CancelInv (s : State) : Prop where
  unregistered : s.start = .workStarted ∨ s.start = .emplace → s.cancel = .idle
  sees : s.cancel.Sees s.seen
  loaded : s.cancel = .test .armed → s.start = .armed
  ended : s.seen = some .completed → s.phase = .completed
  starting : s.phase = .starting → s.taken = none
  deferred : s.phase = .cancelDeferred ∨ s.start = .deferredCancel → s.taken = some .starting
  untaken : s.taken = none ∨ s.taken = some .completed → s.cancels = 0
  armed : s.taken = some .armed → s.cancels = 1
  unfound : s.taken = some .starting → s.found = none → s.cancels = 0
  found : s.taken = some .starting → ∀ f, s.found = some f → f = .completed ∨
    f = .cancelDeferred ∧ s.cancels = if s.start = .deferredCancel then 0 else 1
  arming : s.found = none ↔ s.result ≠ some .pending ∨ s.start = .arm

theorem CancelInv.init : CancelInv {} := by
  constructor <;> simp [CancelPc.Sees, State.taken]

theorem CancelInv.sees_at (h : CancelInv s) (hc : s.cancel = p) : p.Sees s.seen := hc ▸ h.sees

/-- Once `do_start()` has returned `pending`, `start()` has gone to its compare-exchange. -/
theorem CancelInv.found_ne_none (h : CancelInv s) (hr : s.result = some .pending)
    (ha : s.start ≠ .arm) : s.found ≠ none := by
  rw [ne_eq, h.arming, not_or, not_not]
  exact ⟨hr, ha⟩

/-- In these phases `start()` has not armed the operation. -/
theorem StartPc.Allows.armed {p : StartPc} (h : p.Allows .armed) : p = .armed := by
  cases p <;> simp_all [StartPc.Allows]

theorem StartPc.Allows.arm {p : StartPc} (h : p.Allows .starting) (hr : p.Result (some .pending)) :
    p = .arm := by
  cases p <;> simp_all [StartPc.Allows, StartPc.Result]

/-- A step of `start()` that neither arms nor defers a `do_cancel()`. -/
theorem CancelInv.move (h : CancelInv s) (hs : s.start ≠ .armed) (hd : s.start ≠ .deferredCancel)
    (hp : p ≠ .deferredCancel) (hr : p = .emplace → s.cancel = .idle) (hw : p ≠ .workStarted)
    (ha : s.found = none ↔ r ≠ some .pending ∨ p = .arm) :
    CancelInv { s with start := p, result := r } :=
  { h with
    unregistered := fun hq => hr (hq.resolve_left hw)
    loaded := fun hl => absurd (h.loaded hl) hs
    deferred := fun hq => h.deferred (hq.imp_right fun hq => absurd hq hp)
    found := fun hq f hf => by simpa only [hd, hp] using h.found hq f hf
    arming := ha }

/-- A step of `start()` between two others at which `do_start()` has returned the same. -/
theorem CancelInv.moves (h : CancelInv s) (hs : s.start ∉ [.armed, .deferredCancel, .arm])
    (hp : p ∉ [.workStarted, .emplace, .arm, .deferredCancel]) :
    CancelInv { s with start := p } := by
  simp only [List.mem_cons, List.not_mem_nil, or_false, not_or] at hs hp
  obtain ⟨harmed, hdeferred, harm⟩ := hs
  obtain ⟨hworkStarted, hemplace, harm', hdeferred'⟩ := hp
  refine h.move harmed hdeferred hdeferred' (fun hq => absurd hq hemplace) hworkStarted ?_
  rw [h.arming, or_iff_left harm, or_iff_left harm']

theorem CancelInv.emplace (h : CancelInv s) (hi : Inv s)
    (hs : step b s (.emplace requested) = some t) : CancelInv t := by
  obtain ⟨hp, hs⟩ := Option.ite_none_right_eq_some.1 hs
  have hidle : s.cancel = .idle := h.unregistered (.inr hp)
  have hresult : s.result = none := hi.result_at hp
  have hfound : s.found = none := h.arming.2 (.inl (by simp [hresult]))
  have hnone : s.seen = none := h.sees_at hidle
  have hcancels : s.cancels = 0 := h.untaken (.inl (by rw [State.taken, hidle]))
  have hdeferred : s.phase ≠ .cancelDeferred := fun hd => by
    have htaken := h.deferred (.inl hd)
    rw [State.taken, hidle] at htaken
    cases htaken
  split at hs
  · obtain rfl := Option.some.inj hs
    exact {
      unregistered := by simp
      sees := hnone
      loaded := by simp
      ended := h.ended
      starting := fun _ => rfl
      deferred := by simp [hdeferred]
      untaken := fun _ => hcancels
      armed := nofun
      unfound := nofun
      found := nofun
      arming := by simp [hfound, hresult] }
  · obtain rfl := Option.some.inj hs
    exact h.moves (by simp [hp]) (by simp)

theorem CancelInv.doStartReturns (h : CancelInv s) (hi : Inv s)
    (hs : step b s (.doStartReturns r) = some t) : CancelInv t := by
  have hstarted : s.start = .inDoStart → s.found = none := fun hp => by
    have hresult : s.result = none := hi.result_at hp
    exact h.arming.2 (.inl (by simp [hresult]))
  cases r with
  | completed =>
    obtain ⟨⟨hp, -⟩, rfl⟩ := enabled_iff.1 hs
    have hc : CancelInv { s with publish := .exchange, caller := .start } := { h with }
    exact hc.move (by simp [hp]) (by simp [hp]) (by simp) (by simp) (by simp)
      (iff_of_true (hstarted hp) (.inl (by simp)))
  | pending =>
    obtain ⟨hp, rfl⟩ := enabled_iff.1 hs
    exact h.move (by simp [hp]) (by simp [hp]) (by simp) (by simp) (by simp)
      (iff_of_true (hstarted hp) (.inr rfl))

theorem CancelInv.arm (h : CancelInv s) (hi : Inv s)
    (hs : step b s .arm = some t) : CancelInv t := by
  obtain ⟨hp, hs⟩ := Option.ite_none_right_eq_some.1 hs
  have hresult : s.result = some .pending := hi.result_at hp
  have hfound : s.found = none := h.arming.2 (.inr hp)
  have hloaded : s.cancel ≠ .test .armed := fun hc => absurd (h.loaded hc) (by simp [hp])
  split at hs
  · -- no stop request has taken effect
    rename_i hphase
    obtain rfl := Option.some.inj hs
    have htaken := h.starting hphase
    exact { h with
      unregistered := by simp
      loaded := fun _ => rfl
      ended := fun hc => absurd (h.ended hc) (by simp [hphase])
      starting := by simp
      deferred := by simp
      unfound := by simp
      found := fun hq => by cases htaken.symm.trans hq
      arming := by simp [hresult] }
  · split at hs
    · rename_i hphase
      obtain rfl := Option.some.inj hs
      have htaken := h.deferred (.inl hphase)
      exact { h with
        unregistered := by simp
        loaded := fun hc => absurd hc hloaded
        deferred := fun _ => htaken
        unfound := by simp
        found := fun hq f hf => .inr ⟨(Option.some.inj hf).symm, h.unfound hq hfound⟩
        arming := by simp [hresult] }
    · rename_i hstarting hdeferred
      obtain rfl := Option.some.inj hs
      have hcompleted : s.phase = .completed :=
        (hi.start_at hp).completed_of_arm hstarting hdeferred
      exact { h with
        unregistered := by simp
        loaded := fun hc => absurd hc hloaded
        deferred := by simp [hcompleted]
        unfound := by simp
        found := fun _ f hf => .inl ((Option.some.inj hf).symm.trans hcompleted)
        arming := by simp [hresult] }

theorem CancelInv.deferredCancel (h : CancelInv s) (hi : Inv s)
    (hs : step b s .deferredCancel = some t) : CancelInv t := by
  obtain ⟨hp, rfl⟩ := enabled_iff.1 hs
  have htaken := h.deferred (.inr hp)
  have hresult : s.result = some .pending := hi.result_at hp
  have hfound : s.found ≠ none := h.found_ne_none hresult (by simp [hp])
  have hloaded : s.cancel ≠ .test .armed := fun hc => absurd (h.loaded hc) (by simp [hp])
  have hother : ∀ {q}, q ≠ some .starting → s.taken ≠ q := fun hq ht => hq (ht.symm.trans htaken)
  exact { h with
    unregistered := by simp
    loaded := fun hc => absurd hc hloaded
    deferred := fun _ => htaken
    untaken := fun hq => (hq.elim (hother (by simp)) (hother (by simp))).elim
    armed := fun hq => absurd hq (hother (by simp))
    unfound := fun _ hf => absurd hf hfound
    found := fun hq f hf => by
      refine (h.found hq f hf).imp_right fun hc => ⟨hc.1, ?_⟩
      have hcancels := hc.2
      rw [if_pos hp] at hcancels
      rw [if_neg (by simp), hcancels]
    arming := by simp [hresult, hfound] }

theorem CancelInv.armDeferred (h : CancelInv s) (hi : Inv s)
    (hs : step b s .armDeferred = some t) : CancelInv t := by
  obtain ⟨hp, hs⟩ := Option.ite_none_right_eq_some.1 hs
  have hresult : s.result = some .pending := hi.result_at hp
  have harming : s.found ≠ none := h.found_ne_none hresult (by simp [hp])
  split at hs
  · rename_i hphase
    obtain rfl := Option.some.inj hs
    have htaken := h.deferred (.inl hphase)
    exact { h with
      unregistered := by simp
      loaded := fun _ => rfl
      ended := fun hc => absurd (h.ended hc) (by simp [hphase])
      starting := by simp
      deferred := by simp
      found := fun hq f hf => by
        have hc := h.found hq f hf
        rwa [hp] at hc
      arming := by simp [hresult, harming] }
  · obtain rfl := Option.some.inj hs
    exact h.moves (by simp [hp]) (by simp)

/-- `request_cancel()` reads the phase, before it has had any effect. -/
theorem CancelInv.reads (h : CancelInv s) (hi : Inv s)
    (hc : s.cancel = .load ∨ ∃ p, s.cancel = .test p) :
    CancelInv { s with cancel := .test s.phase, seen := some s.phase } := by
  have htaken : s.taken = none := by
    rcases hc with hc | ⟨p, hc⟩ <;> rw [State.taken, hc]
  have hdeferred : ¬ (s.phase = .cancelDeferred ∨ s.start = .deferredCancel) := fun hd => by
    cases htaken.symm.trans (h.deferred hd)
  exact { h with
    unregistered := fun hp => by
      have hidle := h.unregistered hp
      rw [hidle] at hc
      simp at hc
    sees := ⟨rfl, fun hd => hdeferred (.inl hd)⟩
    loaded := fun ha => by
      have hstart := hi.start
      rw [CancelPc.test.inj ha] at hstart
      exact hstart.armed
    ended := Option.some.inj
    starting := fun _ => rfl
    deferred := fun hd => absurd hd hdeferred
    untaken := fun _ => h.untaken (.inl htaken)
    armed := nofun
    unfound := nofun
    found := nofun }

theorem CancelInv.test (h : CancelInv s) (hi : Inv s)
    (hs : step b s (.test spurious) = some t) : CancelInv t := by
  simp only [OperationState.step] at hs
  split at hs
  · rename_i hc
    have hsees : s.seen = some .starting := (h.sees_at hc).1
    have hcancels : s.cancels = 0 := h.untaken (.inl (State.taken_of_test hc))
    split at hs
    · -- the request takes effect, and `start()` has not come to its compare-exchange
      rename_i hphase
      obtain rfl := Option.some.inj hs
      have hfound : s.found = none := h.arming.2 (by
        by_contra hn
        obtain ⟨hresult, harm⟩ := not_or.1 hn
        have hstart := hi.start
        have hr := hi.result
        rw [hphase.1] at hstart
        rw [not_not.1 hresult] at hr
        exact harm (hstart.arm hr))
      exact { h with
        unregistered := fun hp => absurd (h.unregistered hp) (by simp [hc])
        sees := .inl hsees
        loaded := by simp
        ended := by simp [hsees]
        starting := by simp
        deferred := fun _ => hsees
        untaken := fun _ => hcancels
        armed := fun hq => by cases hsees.symm.trans hq
        unfound := fun _ _ => hcancels
        found := fun _ f hf => by cases hfound.symm.trans hf }
    · obtain rfl := Option.some.inj hs
      exact h.reads hi (.inr ⟨_, hc⟩)
  · rename_i hc
    obtain rfl := Option.some.inj hs
    have hsees : s.seen = some .armed := (h.sees_at hc).1
    have htaken := State.taken_of_test hc
    have hstart : s.start = .armed := h.loaded hc
    have hother : ∀ {q}, q ≠ some .armed → s.seen ≠ q := fun hq ht => hq (ht.symm.trans hsees)
    exact { h with
      unregistered := by simp [hstart]
      sees := hsees
      loaded := by simp
      starting := fun hphase => by
        have hallows := hi.start
        rw [hphase, hstart] at hallows
        simp [StartPc.Allows] at hallows
      deferred := fun hd => by cases htaken.symm.trans (h.deferred hd)
      untaken := fun hq => (hq.elim (hother (by simp)) (hother (by simp))).elim
      armed := fun _ => by rw [h.untaken (.inl htaken)]
      unfound := fun hq => absurd hq (hother (by simp))
      found := fun hq => absurd hq (hother (by simp)) }
  · rename_i p hstarting harmed hc
    obtain rfl := Option.some.inj hs
    have hsees : s.seen = some p ∧ p ≠ .cancelDeferred := h.sees_at hc
    have hp : p = .completed := by
      cases p with
      | starting => exact absurd rfl hstarting
      | armed => exact absurd rfl harmed
      | cancelDeferred => exact absurd rfl hsees.2
      | completed => rfl
    subst hp
    have htaken := State.taken_of_test hc
    have hphase := h.ended hsees.1
    have hother : ∀ {q}, q ≠ some .completed → s.seen ≠ q := fun hq ht =>
      hq (ht.symm.trans hsees.1)
    exact { h with
      unregistered := fun hp => absurd (h.unregistered hp) (by simp [hc])
      sees := .inr (.inr hsees.1)
      loaded := by simp
      starting := by simp [hphase]
      deferred := fun hd => by cases htaken.symm.trans (h.deferred hd)
      untaken := fun _ => h.untaken (.inl htaken)
      armed := fun hq => absurd hq (hother (by simp))
      unfound := fun hq => absurd hq (hother (by simp))
      found := fun hq => absurd hq (hother (by simp)) }
  · cases hs

theorem CancelInv.stop (h : CancelInv s) (hs : step b s .stop = some t) : CancelInv t := by
  obtain ⟨⟨-, hidle, hworkStarted, hemplace, -⟩, rfl⟩ := enabled_iff.1 hs
  have htaken : s.taken = none := by rw [State.taken, hidle]
  have hsees : s.seen = none := h.sees_at hidle
  exact { h with
    unregistered := fun hp => (hp.elim hworkStarted hemplace).elim
    sees := hsees
    loaded := by simp
    starting := fun _ => rfl
    deferred := fun hd => by cases htaken.symm.trans (h.deferred hd)
    untaken := fun _ => h.untaken (.inl htaken)
    armed := nofun
    unfound := nofun
    found := nofun }

theorem CancelInv.requestCancelReturns (h : CancelInv s)
    (hs : step b s .requestCancelReturns = some t) : CancelInv t := by
  obtain ⟨⟨hc, -⟩, rfl⟩ := enabled_iff.1 hs
  have htaken : s.taken = s.seen := by rw [State.taken, hc]
  have hsees : s.seen = some .armed := h.sees_at hc
  exact { h with
    unregistered := fun hp => absurd (h.unregistered hp) (by simp [hc])
    sees := .inr (.inl hsees)
    loaded := by simp
    starting := fun hphase => htaken.symm.trans (h.starting hphase)
    deferred := fun hd => htaken.symm.trans (h.deferred hd)
    untaken := fun hq => h.untaken (by rwa [htaken])
    armed := fun hq => h.armed (htaken.trans hq)
    unfound := fun hq => h.unfound (htaken.trans hq)
    found := fun hq => h.found (htaken.trans hq) }

theorem CancelInv.step (h : CancelInv s) (hi : Inv s) (hs : step b s a = some t) :
    CancelInv t := by
  cases a with
  | workStarted =>
    obtain ⟨hp, rfl⟩ := enabled_iff.1 hs
    have hc : CancelInv { s with workCount := s.workCount + 1 } := { h with }
    refine hc.move (by simp [hp]) (by simp [hp]) (by split <;> simp)
      (fun _ => h.unregistered (.inl hp)) (by split <;> simp) ?_
    rw [h.arming, hp]
    split <;> simp
  | emplace requested => exact h.emplace hi hs
  | emplaced | published | deferredCancelReturns =>
    obtain ⟨⟨hp, -⟩, rfl⟩ := enabled_iff.1 hs
    exact h.moves (by simp [hp]) (by simp)
  | doStart | wakeup =>
    obtain ⟨hp, rfl⟩ := enabled_iff.1 hs
    exact h.moves (by simp [hp]) (by simp)
  | doStartReturns r => exact h.doStartReturns hi hs
  | arm => exact h.arm hi hs
  | deferredCancel => exact h.deferredCancel hi hs
  | armDeferred => exact h.armDeferred hi hs
  | check =>
    simp only [OperationState.step] at hs
    split at hs
    · rename_i e hp
      obtain rfl := Option.some.inj hs
      have hc : CancelInv { s with asserts := s.asserts && e = .completed } := { h with }
      exact hc.moves (by simp [hp]) (by simp)
    · cases hs
  | post =>
    obtain ⟨hp, rfl⟩ := enabled_iff.1 hs
    have hc : CancelInv { s with posts := s.posts + 1 } := { h with }
    exact hc.moves (by simp [hp]) (by simp)
  | stop => exact h.stop hs
  | load =>
    obtain ⟨hc, rfl⟩ := enabled_iff.1 hs
    exact h.reads hi (.inl hc)
  | test spurious => exact h.test hi hs
  | requestCancelReturns => exact h.requestCancelReturns hs
  | exchange =>
    obtain ⟨-, rfl⟩ := enabled_iff.1 hs
    exact { h with
      ended := fun _ => rfl
      starting := by simp
      deferred := fun hd => h.deferred (.inr (hd.resolve_left (by simp))) }
  | testPrevious =>
    simp only [OperationState.step] at hs
    split at hs
    · obtain rfl := Option.some.inj hs
      exact { h with }
    · cases hs
  | publish | publishPost | publishWakeup | dequeue | workFinished | reset =>
    obtain ⟨-, rfl⟩ := enabled_iff.1 hs
    exact { h with }

theorem Inv.publish_untouched (h : Inv s) (hphase : s.phase = .completed) (hs : s.start ≠ .armed) :
    s.publish.Touches = false := by
  have hexchanged := h.exchanged.1 hphase
  cases hp : s.publish with
  | exchange =>
    rw [hp] at hexchanged
    cases hexchanged
  | test previous => exact decide_eq_false fun ha => hs ((h.previous previous hp).2.1 ha)
  | post => exact absurd (h.posting (.inl hp)) hs
  | _ => rfl

/-- Once the operation is posted, neither `start()` nor `publish()` uses it any more. -/
theorem Inv.posted (h : Inv s) (hp : 0 < s.posts) :
    s.posts = 1 ∧ s.start.Touches = false ∧ s.publish.Touches = false := by
  have hposts := h.posts
  have hstart := h.start
  cases hq : s.start with
  | wakeup =>
    rw [hq] at hstart hposts
    exact ⟨hposts, rfl, h.publish_untouched hstart (by simp [hq])⟩
  | posted =>
    rw [hq] at hstart hposts
    exact ⟨hposts, rfl, h.publish_untouched hstart (by simp [hq])⟩
  | armed =>
    rw [if_neg (by simp [hq]), Nat.zero_add] at hposts
    split at hposts
    · rename_i hpub
      refine ⟨hposts, rfl, ?_⟩
      rcases hpub.2 with hpub | hpub <;> rw [hpub] <;> rfl
    · exact absurd hp (by simp [hposts])
  | _ => simp [hq] at hposts; omega

theorem Inv.returned (h : Inv s) (hs : s.start.Returned)
    (hp : s.publish = .returned ∨ s.result = some .completed) : s.posts = 1 := by
  cases hq : s.start with
  | armed =>
    have hresult : s.result = some .pending := h.result_at hq
    have hpub := hp.resolve_right (by simp [hresult])
    rw [h.posts, if_neg (by simp [hq]), if_pos ⟨hq, .inr hpub⟩]
  | posted => rw [h.posts, if_pos (.inr hq), if_neg (by simp [hq])]
  | _ =>
    rw [hq] at hs
    cases hs

/-- The consumer finishes only what was posted, and resets the callback before `do_finish()`. -/
structure FinishInv (s : State) : Prop where
  posted : s.finish ≠ .queued → 0 < s.posts
  reset : s.finish = .doFinish → s.cancel.Running = false

theorem FinishInv.init : FinishInv {} := by
  constructor <;> simp

/-- Every step but those of the consumer. -/
theorem FinishInv.frame (h : FinishInv s) (hf : t.finish = s.finish) (hp : s.posts ≤ t.posts)
    (hc : s.finish = .doFinish → s.cancel.Running = false → t.cancel.Running = false) :
    FinishInv t where
  posted hq := Nat.lt_of_lt_of_le (h.posted (by rwa [← hf])) hp
  reset hq := hc (hf.symm.trans hq) (h.reset (hf.symm.trans hq))

theorem FinishInv.step (h : FinishInv s) (hi : Inv s) (hs : step b s a = some t) : FinishInv t := by
  cases a with
  | emplace requested =>
    obtain ⟨hp, hs⟩ := Option.ite_none_right_eq_some.1 hs
    -- an operation that is not yet started is not posted
    have hfinish : s.finish ≠ .doFinish := fun hf => by
      have htouches := (hi.posted (h.posted (by simp [hf]))).2.1
      rw [hp] at htouches
      cases htouches
    split at hs <;> obtain rfl := Option.some.inj hs <;>
      exact h.frame rfl (Nat.le_refl _) fun hf => absurd hf hfinish
  | arm | armDeferred =>
    obtain ⟨hp, hs⟩ := Option.ite_none_right_eq_some.1 hs
    (repeat' split at hs) <;> obtain rfl := Option.some.inj hs <;>
      exact h.frame rfl (Nat.le_refl _) fun _ hc => hc
  | doStartReturns r =>
    cases r <;> obtain ⟨-, rfl⟩ := enabled_iff.1 hs <;>
      exact h.frame rfl (Nat.le_refl _) fun _ hc => hc
  | check | testPrevious =>
    simp only [OperationState.step] at hs
    split at hs
    · obtain rfl := Option.some.inj hs
      exact h.frame rfl (Nat.le_refl _) fun _ hc => hc
    · cases hs
  | post | publishPost =>
    obtain ⟨-, rfl⟩ := enabled_iff.1 hs
    exact h.frame rfl (Nat.le_succ _) fun _ hc => hc
  | stop =>
    obtain ⟨⟨-, -, -, -, hfinish⟩, rfl⟩ := enabled_iff.1 hs
    exact h.frame rfl (Nat.le_refl _) fun hf => absurd hf hfinish
  | load =>
    obtain ⟨hp, rfl⟩ := enabled_iff.1 hs
    refine h.frame rfl (Nat.le_refl _) fun _ hc => ?_
    rw [hp] at hc
    cases hc
  | test spurious =>
    have hrunning : ∀ p, s.cancel = .test p → s.cancel.Running = true := fun p hp => by
      rw [hp]
      rfl
    simp only [OperationState.step] at hs
    (repeat' split at hs) <;> cases hs <;>
      exact h.frame rfl (Nat.le_refl _) fun _ hc => by
        cases hc.symm.trans (hrunning _ (by assumption))
  | requestCancelReturns =>
    obtain ⟨-, rfl⟩ := enabled_iff.1 hs
    exact h.frame rfl (Nat.le_refl _) fun _ _ => rfl
  | dequeue =>
    obtain ⟨⟨-, hp⟩, rfl⟩ := enabled_iff.1 hs
    exact ⟨fun _ => hp, by simp⟩
  | workFinished =>
    obtain ⟨hf, rfl⟩ := enabled_iff.1 hs
    exact ⟨fun _ => h.posted (by simp [hf]), by simp⟩
  | reset =>
    obtain ⟨⟨hf, hc⟩, rfl⟩ := enabled_iff.1 hs
    exact ⟨fun _ => h.posted (by simp [hf]), fun _ => Bool.eq_false_iff.2 hc⟩
  | _ =>
    obtain ⟨-, rfl⟩ := enabled_iff.1 hs
    exact h.frame rfl (Nat.le_refl _) fun _ hc => hc

theorem invariants (h : (system b).Reachable s) : Inv s ∧ CancelInv s ∧ FinishInv s :=
  System.Invariant.reachable (I := fun s => Inv s ∧ CancelInv s ∧ FinishInv s)
    ⟨⟨.init, .init, .init⟩,
      fun _ _ _ _ ⟨hi, hc, hf⟩ hs => ⟨hi.step hs, hc.step hi hs, hf.step hi hs⟩⟩ h

theorem CancelInv.followed (h : CancelInv s) (hs : s.start.Returned)
    (hr : s.taken = some .starting) (hi : Inv s) :
    s.cancels = 1 ∨ s.result = some .completed ∨ s.found = some .completed := by
  have hstart : s.start ≠ .deferredCancel ∧ s.start ≠ .arm := by
    constructor <;> intro hq <;> simp [hq, StartPc.Returned] at hs
  cases hf : s.found with
  | none =>
    have hpending := (h.arming.1 hf).resolve_right hstart.2
    have hresult := hi.result
    cases hq : s.start with
    | armed =>
      rw [hq] at hresult
      exact absurd hresult hpending
    | posted =>
      rw [hq] at hresult
      cases hr : s.result with
      | none => exact absurd hr hresult
      | some r =>
        cases r with
        | completed => exact .inr (.inl rfl)
        | pending => exact absurd hr hpending
    | _ =>
      rw [hq] at hs
      cases hs
  | some f =>
    rcases h.found hr f hf with rfl | ⟨rfl, hc⟩
    · exact .inr (.inr rfl)
    · rw [if_neg hstart.1] at hc
      exact .inl hc

/-- A stop request that has returned found the operation `starting`, `armed` or `completed`, and
`do_cancel()` is called by `request_cancel()` itself or by `start()` after it. -/
theorem CancelInv.requested (h : CancelInv s) (hi : Inv s) :
    (s.cancel = .idle ∨ s.cancel = .load ∨ (∃ p, s.cancel = .test p) → s.cancels = 0) ∧
    (s.cancel = .returned →
      s.seen = some .starting ∨ s.seen = some .armed ∨ s.seen = some .completed) ∧
    (s.cancel = .inDoCancel → s.seen = some .armed) ∧
    (s.cancel = .inDoCancel ∨ s.cancel = .returned → s.seen = some .armed → s.cancels = 1) ∧
    (s.cancel = .returned → s.seen = some .completed → s.cancels = 0) ∧
    (s.cancel = .returned → s.seen = some .starting → s.start.Returned →
      s.cancels = 1 ∨ s.result = some .completed ∨ s.found = some .completed) := by
  have htaken : s.cancel = .inDoCancel ∨ s.cancel = .returned → s.taken = s.seen := by
    rintro (hc | hc) <;> rw [State.taken, hc]
  refine ⟨fun hc => h.untaken (.inl ?_), fun hc => ?_, fun hc => ?_, fun hc hseen => ?_,
    fun hc hseen => ?_, fun hc hseen hret => ?_⟩
  · rcases hc with hc | hc | ⟨p, hc⟩ <;> rw [State.taken, hc]
  · exact h.sees_at hc
  · exact h.sees_at hc
  · exact h.armed ((htaken hc).trans hseen)
  · exact h.untaken (.inr ((htaken (.inr hc)).trans hseen))
  · exact h.followed hret ((htaken (.inr hc)).trans hseen) hi

/-- The phase protocol, for every interleaving of `start()`, one `request_cancel()` and one
`publish()`: one insertion into the op queue, none while `start()` still uses the operation, no
assertion fails, and a stop request that found the operation `starting` or `armed` is followed by
`do_cancel()`, unless the operation was published first. -/
theorem phase_protocol (h : (system stoppable).Reachable s) :
    s.posts ≤ 1 ∧
    (s.start.Returned → s.publish = .returned ∨ s.result = some .completed → s.posts = 1) ∧
    (0 < s.posts → s.start.Touches = false) ∧
    s.asserts = true ∧
    (s.cancel = .idle ∨ s.cancel = .load ∨ (∃ p, s.cancel = .test p) → s.cancels = 0) ∧
    (s.cancel = .returned →
      s.seen = some .starting ∨ s.seen = some .armed ∨ s.seen = some .completed) ∧
    (s.cancel = .inDoCancel → s.seen = some .armed) ∧
    (s.cancel = .inDoCancel ∨ s.cancel = .returned → s.seen = some .armed → s.cancels = 1) ∧
    (s.cancel = .returned → s.seen = some .completed → s.cancels = 0) ∧
    (s.cancel = .returned → s.seen = some .starting → s.start.Returned →
      s.cancels = 1 ∨ s.result = some .completed ∨ s.found = some .completed) := by
  obtain ⟨hi, hc, -⟩ := invariants h
  refine ⟨?_, hi.returned, fun hp => (hi.posted hp).2.1, hi.asserts, hc.requested hi⟩
  by_contra hn
  have := (hi.posted (by omega)).1
  omega

/-- A stop request that meets `start()` inside `do_start()` cancels the operation after it. -/
def deferredRun : List Act :=
  [.workStarted, .emplace false, .doStart, .stop, .load, .test false, .doStartReturns .pending,
    .arm, .deferredCancel, .publish .startCancel, .exchange, .testPrevious, .deferredCancelReturns,
    .armDeferred, .check, .post, .wakeup]

theorem phase_protocol_deferred : ∃ s, (system true).exec (system true).init deferredRun = some s ∧
    s.seen = some .starting ∧ s.posts = 1 ∧ s.cancels = 1 := by
  have hend : ((system true).exec (system true).init deferredRun).map
      (fun s => (s.start, s.cancel, s.publish, s.seen, s.result, s.found)) = some
        (.posted, .returned, .returned, some .starting, some .pending, some .cancelDeferred) := rfl
  obtain ⟨s, hs, he⟩ := Option.map_eq_some_iff.1 hend
  simp only [Prod.mk.injEq] at he
  obtain ⟨hstart, hcancel, hpublish, hseen, hresult, hfound⟩ := he
  obtain ⟨-, hposts, -, -, -, -, -, -, -, hcancels⟩ :=
    phase_protocol ((system true).reachable_exec deferredRun hs)
  have hret : s.start.Returned = true := by rw [hstart]; rfl
  refine ⟨s, hs, hseen, hposts hret (.inl hpublish), ?_⟩
  exact (hcancels hcancel hseen hret).resolve_right (by simp [hresult, hfound])

/-- When the consumer runs `do_finish()`, after which the operation may be destroyed, no call on the
operation has a step left that uses it. -/
theorem finished_untouched (h : (system stoppable).Reachable s) (hf : s.finish = .doFinish) :
    s.start.Touches = false ∧ s.publish.Touches = false ∧ s.cancel.Running = false := by
  obtain ⟨hi, -, hfin⟩ := invariants h
  have hp := hi.posted (hfin.posted (by simp [hf]))
  exact ⟨hp.2.1, hp.2.2, hfin.reset hf⟩

/-- Outside of `start()` an operation is only cancelled once `start()` has left it armed. -/
theorem inDoCancel_armed (h : (system b).Reachable s) (hc : s.cancel = .inDoCancel) :
    s.start = .armed := by
  induction h with
  | init => cases hc
  | @step s a t hr hs ih =>
    cases a with
    | workStarted | doStart | deferredCancel | post | wakeup =>
      obtain ⟨hp, rfl⟩ := enabled_iff.1 hs
      exact absurd (ih hc) (by simp [hp])
    | emplaced | published | deferredCancelReturns =>
      obtain ⟨⟨hp, -⟩, rfl⟩ := enabled_iff.1 hs
      exact absurd (ih hc) (by simp [hp])
    | emplace requested =>
      obtain ⟨hp, hs⟩ := Option.ite_none_right_eq_some.1 hs
      split at hs <;> obtain rfl := Option.some.inj hs
      · cases hc
      · exact absurd (ih hc) (by simp [hp])
    | arm | armDeferred =>
      obtain ⟨hp, hs⟩ := Option.ite_none_right_eq_some.1 hs
      (repeat' split at hs) <;> obtain rfl := Option.some.inj hs <;>
        exact absurd (ih hc) (by simp [hp])
    | doStartReturns r =>
      cases r with
      | completed =>
        obtain ⟨⟨hp, -⟩, rfl⟩ := enabled_iff.1 hs
        exact absurd (ih hc) (by simp [hp])
      | pending =>
        obtain ⟨hp, rfl⟩ := enabled_iff.1 hs
        exact absurd (ih hc) (by simp [hp])
    | check =>
      simp only [system, OperationState.step] at hs
      split at hs
      · rename_i e hp
        obtain rfl := Option.some.inj hs
        exact absurd (ih hc) (by simp [hp])
      · cases hs
    | stop | load | requestCancelReturns =>
      obtain ⟨-, rfl⟩ := enabled_iff.1 hs
      cases hc
    | test spurious =>
      simp only [system, OperationState.step] at hs
      split at hs
      · split at hs <;> obtain rfl := Option.some.inj hs <;> cases hc
      · -- the request has found the operation armed
        rename_i harmed
        obtain rfl := Option.some.inj hs
        exact (invariants hr).2.1.loaded harmed
      · obtain rfl := Option.some.inj hs
        cases hc
      · cases hs
    | testPrevious =>
      simp only [system, OperationState.step] at hs
      split at hs
      · obtain rfl := Option.some.inj hs
        exact ih hc
      · cases hs
    | _ =>
      obtain ⟨-, rfl⟩ := enabled_iff.1 hs
      exact ih hc

end OperationState
end Coio
