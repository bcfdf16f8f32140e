import Coio.Operation.Model

namespace Coio
open Transition
set_option autoImplicit true

namespace OperationState

/-- The phases in which `start()` can be at a step. -/
def StartPc.Allows (phase : OperationPhase) : StartPc → Prop
  | .deferredCancel | .inDoCancel | .armDeferred => phase = .cancelDeferred ∨ phase = .completed
  | .armed => phase = .armed ∨ phase = .completed
  | .check expected => expected = .completed ∧ phase = .completed
  | .post | .wakeup | .posted => phase = .completed
  | _ => phase ≠ .armed

/-- What `do_start()` has returned when `start()` is at a step. -/
def StartPc.Result (result : Option StartResult) : StartPc → Prop
  | .workStarted | .emplace | .callback | .doStart | .inDoStart => result = none
  | .publishing => result = some .completed
  | .post | .wakeup | .posted => result ≠ none
  | _ => result = some .pending

/-- What every interleaving keeps between the phase and the calls in progress. The thread in
`publish()` posts exactly when `start()` has returned armed. -/
structure Inv (s : State) : Prop where
  asserts : s.asserts = true
  exchanged : s.phase = .completed ↔ s.publish.Exchanged
  start : s.start.Allows s.phase
  result : s.start.Result s.result
  previous : ∀ p, s.publish = .test p → p ≠ .completed ∧ (p = .armed ↔ s.start = .armed)
  posting : s.publish = .post ∨ s.publish = .wakeup → s.start = .armed
  completed : s.result = some .completed → s.publish ≠ .idle
  posts : s.posts = (if s.start = .wakeup ∨ s.start = .posted then 1 else 0) +
    (if s.start = .armed ∧ (s.publish = .wakeup ∨ s.publish = .returned) then 1 else 0)

theorem StartPc.Allows.completed {p : StartPc} (h : p.Allows phase) (hp : p ≠ .armed) :
    p.Allows .completed := by
  cases p <;> simp_all [StartPc.Allows]

theorem StartPc.Allows.cancelDeferred {p : StartPc} (h : p.Allows .starting) :
    p.Allows .cancelDeferred := by
  cases p <;> simp_all [StartPc.Allows]

/-- `start()` has armed the operation when the phase says so, until it is published. -/
theorem StartPc.Allows.armed_iff {p : StartPc} (h : p.Allows phase) (hn : phase ≠ .completed) :
    phase = .armed ↔ p = .armed := by
  cases p <;> cases phase <;> simp_all [StartPc.Allows]

/-- When its compare-exchange fails with another phase than `cancelDeferred`. -/
theorem StartPc.Allows.completed_of_arm (h : StartPc.arm.Allows phase) (hs : phase ≠ .starting)
    (hd : phase ≠ .cancelDeferred) : phase = .completed := by
  cases phase with
  | starting => exact absurd rfl hs
  | armed => exact absurd rfl h
  | cancelDeferred => exact absurd rfl hd
  | completed => rfl

/-- At these steps `start()` has neither armed the operation nor posted it. -/
def StartPc.Quiet (p : StartPc) : Prop :=
  p ≠ .armed ∧ p ≠ .wakeup ∧ p ≠ .posted

theorem Inv.init : Inv {} := by
  constructor <;> simp [PublishPc.Exchanged, StartPc.Allows, StartPc.Result]

theorem Inv.start_at (h : Inv s) (hp : s.start = p) : p.Allows s.phase := hp ▸ h.start

theorem Inv.result_at (h : Inv s) (hp : s.start = p) : p.Result s.result := hp ▸ h.result

theorem Inv.unpublished (h : Inv s) (hp : s.publish.Exchanged = false) : s.phase ≠ .completed :=
  fun hc => by
    have hexchanged := h.exchanged.1 hc
    rw [hp] at hexchanged
    cases hexchanged

/-- A step of `start()` that neither arms nor posts only has to respect the phase and the result. -/
theorem Inv.move (h : Inv s) (hq : s.start.Quiet) (hp : p.Quiet) (ha : p.Allows s.phase)
    (hr : p.Result r) (hc : r = some .completed → s.publish ≠ .idle) :
    Inv { s with start := p, result := r } where
  asserts := h.asserts
  exchanged := h.exchanged
  start := ha
  result := hr
  previous q hq' := by
    obtain ⟨hne, harmed⟩ := h.previous q hq'
    exact ⟨hne, harmed.trans (iff_of_false hq.1 hp.1)⟩
  posting hq' := absurd (h.posting hq') hq.1
  completed := hc
  posts := by
    obtain ⟨harmed, hwakeup, hposted⟩ := hq
    obtain ⟨harmed', hwakeup', hposted'⟩ := hp
    have hposts := h.posts
    rw [if_neg (by simp [hwakeup, hposted]), if_neg (by simp [harmed])] at hposts
    rw [if_neg (by simp [hwakeup', hposted']), if_neg (by simp [harmed'])]
    exact hposts

/-- A step of `start()` to one that allows the same. -/
theorem Inv.moves (h : Inv s) (hq : s.start.Quiet) (hp : p.Quiet)
    (ha : s.start.Allows s.phase → p.Allows s.phase)
    (hr : s.start.Result s.result → p.Result s.result) : Inv { s with start := p } :=
  h.move hq hp (ha h.start) (hr h.result) h.completed

/-- `start()` arms the operation, which nobody has published. -/
theorem Inv.arms (h : Inv s) (hq : s.start.Quiet) (hphase : s.phase ≠ .completed)
    (hr : s.result = some .pending) : Inv { s with phase := .armed, start := .armed } := by
  have hpublish : ¬ s.publish.Exchanged := fun hp => hphase (h.exchanged.2 hp)
  have hpost : ¬ (s.publish = .wakeup ∨ s.publish = .returned) := by
    rintro (hp | hp) <;> rw [hp] at hpublish <;> exact hpublish rfl
  exact {
    asserts := h.asserts
    exchanged := iff_of_false (by simp) hpublish
    start := .inl rfl
    result := hr
    previous := fun p hp => by
      rw [hp] at hpublish
      exact absurd rfl hpublish
    posting := fun _ => rfl
    completed := h.completed
    posts := by
      have hposts := h.posts
      rw [if_neg (by simp [hq.2.1, hq.2.2]), if_neg (by simp [hq.1])] at hposts
      rw [if_neg (by simp), if_neg fun hp => hpost hp.2]
      exact hposts }

theorem Inv.doStartReturns (h : Inv s) (hs : step b s (.doStartReturns r) = some t) : Inv t := by
  cases r with
  | completed =>
    obtain ⟨⟨hp, hi⟩, rfl⟩ := enabled_iff.1 hs
    have hphase : s.phase ≠ .completed := h.unpublished (by rw [hi]; rfl)
    have hstart : s.phase ≠ .armed := h.start_at hp
    exact {
      asserts := h.asserts
      exchanged := iff_of_false hphase (by simp [PublishPc.Exchanged])
      start := hstart
      result := rfl
      previous := by simp
      posting := by simp
      completed := by simp
      posts := by
        have hposts := h.posts
        rwa [if_neg (by simp [hp]), if_neg (by simp [hp])] at hposts }
  | pending =>
    obtain ⟨hp, rfl⟩ := enabled_iff.1 hs
    have hstart : s.phase ≠ .armed := h.start_at hp
    exact h.move (by simp [hp, StartPc.Quiet]) (by simp [StartPc.Quiet]) hstart rfl (by simp)

theorem Inv.arm (h : Inv s) (hs : step b s .arm = some t) : Inv t := by
  obtain ⟨hp, hs⟩ := Option.ite_none_right_eq_some.1 hs
  have hquiet : s.start.Quiet := by simp [hp, StartPc.Quiet]
  have hresult : s.result = some .pending := h.result_at hp
  split at hs
  · rename_i hphase
    obtain rfl := Option.some.inj hs
    have hf : Inv { s with found := some .starting } := { h with }
    exact hf.arms hquiet (by simp [hphase]) hresult
  · split at hs
    · rename_i hphase
      obtain rfl := Option.some.inj hs
      have hf : Inv { s with found := some .cancelDeferred } := { h with }
      exact hf.move hquiet (by simp [StartPc.Quiet]) (.inl hphase) hresult h.completed
    · rename_i hstarting hdeferred
      obtain rfl := Option.some.inj hs
      have hphase : s.phase = .completed :=
        (h.start_at hp).completed_of_arm hstarting hdeferred
      have hf : Inv { s with found := some s.phase } := { h with }
      exact hf.move hquiet (by simp [StartPc.Quiet]) ⟨hphase, hphase⟩ hresult h.completed

theorem Inv.armDeferred (h : Inv s) (hs : step b s .armDeferred = some t) : Inv t := by
  obtain ⟨hp, hs⟩ := Option.ite_none_right_eq_some.1 hs
  have hquiet : s.start.Quiet := by simp [hp, StartPc.Quiet]
  have hresult : s.result = some .pending := h.result_at hp
  split at hs
  · rename_i hphase
    obtain rfl := Option.some.inj hs
    exact h.arms hquiet (by simp [hphase]) hresult
  · rename_i hdeferred
    obtain rfl := Option.some.inj hs
    have hphase : s.phase = .completed := (h.start_at hp).resolve_left hdeferred
    exact h.move hquiet (by simp [StartPc.Quiet]) ⟨hphase, hphase⟩ hresult h.completed

/-- The steps of `start()` after the operation has been published. -/
theorem Inv.post (h : Inv s) (hs : step b s a = some t) (ha : a = .post ∨ a = .wakeup) : Inv t := by
  rcases ha with rfl | rfl <;> obtain ⟨hp, rfl⟩ := enabled_iff.1 hs
  all_goals
    have hphase : s.phase = .completed := h.start_at hp
    have hresult : s.result ≠ none := h.result_at hp
    exact { h with
      start := hphase
      result := hresult
      previous := fun p hq => by
        have hprevious := h.previous p hq
        rw [hp] at hprevious
        simpa using hprevious
      posting := fun hq => absurd (h.posting hq) (by simp [hp])
      posts := by simpa [hp] using h.posts }

theorem Inv.exchange (h : Inv s) (hs : step b s .exchange = some t) : Inv t := by
  obtain ⟨hp, rfl⟩ := enabled_iff.1 hs
  have hphase : s.phase ≠ .completed := h.unpublished (by rw [hp]; rfl)
  exact { h with
    exchanged := iff_of_true rfl rfl
    start := by
      by_cases hq : s.start = .armed
      · exact hq ▸ .inr rfl
      · exact h.start.completed hq
    previous := fun p hq => by
      obtain rfl := PublishPc.test.inj hq
      exact ⟨hphase, h.start.armed_iff hphase⟩
    posting := by simp
    completed := by simp
    posts := by simpa [hp] using h.posts }

theorem Inv.testPrevious (h : Inv s) (hs : step b s .testPrevious = some t) : Inv t := by
  simp only [OperationState.step] at hs
  split at hs
  · rename_i p hp
    obtain rfl := Option.some.inj hs
    obtain ⟨hne, harmed⟩ := h.previous p hp
    have hphase : s.phase = .completed := h.exchanged.2 (by rw [hp]; rfl)
    exact { h with
      asserts := by simp [h.asserts, hne]
      exchanged := iff_of_true hphase (by dsimp only; split <;> rfl)
      previous := fun q hq => by
        dsimp only at hq
        split at hq <;> cases hq
      posting := fun hq => harmed.1 (by
        by_contra hn
        simp [hn] at hq)
      completed := fun _ => by
        dsimp only
        split <;> simp
      posts := by
        by_cases hq : p = .armed
        · simpa [hp, hq] using h.posts
        · have hs : s.start ≠ .armed := fun hc => hq (harmed.2 hc)
          simpa [hp, hs] using h.posts }
  · cases hs

/-- The steps of `publish()` after it has found the operation armed. -/
theorem Inv.publishPost (h : Inv s) (hs : step b s a = some t)
    (ha : a = .publishPost ∨ a = .publishWakeup) : Inv t := by
  rcases ha with rfl | rfl <;> obtain ⟨hp, rfl⟩ := enabled_iff.1 hs
  all_goals
    have harmed : s.start = .armed := h.posting (by simp [hp])
    have hphase : s.phase = .completed := h.exchanged.2 (by rw [hp]; rfl)
    exact { h with
      exchanged := iff_of_true hphase rfl
      previous := by simp
      posting := fun _ => harmed
      completed := by simp
      posts := by simpa [hp, harmed] using h.posts }

theorem Inv.step (h : Inv s) (hs : step b s a = some t) : Inv t := by
  cases a with
  | workStarted =>
    obtain ⟨hp, rfl⟩ := enabled_iff.1 hs
    have hw : Inv { s with workCount := s.workCount + 1 } := { h with }
    refine hw.moves (by simp [hp, StartPc.Quiet]) ?_ ?_ ?_
    · split <;> simp [StartPc.Quiet]
    · rw [hp]
      split <;> exact id
    · rw [hp]
      split <;> exact id
  | emplace requested =>
    obtain ⟨hp, hs⟩ := Option.ite_none_right_eq_some.1 hs
    have hquiet : s.start.Quiet := by simp [hp, StartPc.Quiet]
    split at hs
    · obtain rfl := Option.some.inj hs
      have hc : Inv { s with cancel := .load } := { h with }
      exact hc.moves hquiet (by simp [StartPc.Quiet]) (by rw [hp]; exact id) (by rw [hp]; exact id)
    · obtain rfl := Option.some.inj hs
      exact h.moves hquiet (by simp [StartPc.Quiet]) (by rw [hp]; exact id) (by rw [hp]; exact id)
  | emplaced | deferredCancelReturns =>
    obtain ⟨⟨hp, -⟩, rfl⟩ := enabled_iff.1 hs
    exact h.moves (by simp [hp, StartPc.Quiet]) (by simp [StartPc.Quiet]) (by rw [hp]; exact id)
      (by rw [hp]; exact id)
  | doStart =>
    obtain ⟨hp, rfl⟩ := enabled_iff.1 hs
    exact h.moves (by simp [hp, StartPc.Quiet]) (by simp [StartPc.Quiet]) (by rw [hp]; exact id)
      (by rw [hp]; exact id)
  | doStartReturns r => exact h.doStartReturns hs
  | published =>
    obtain ⟨⟨hp, hpublish⟩, rfl⟩ := enabled_iff.1 hs
    have hphase : s.phase = .completed := h.exchanged.2 (by rw [hpublish]; rfl)
    have hresult : s.result = some .completed := h.result_at hp
    exact h.moves (by simp [hp, StartPc.Quiet]) (by simp [StartPc.Quiet]) (fun _ => hphase)
      (by simp [hresult, StartPc.Result])
  | arm => exact h.arm hs
  | deferredCancel =>
    obtain ⟨hp, rfl⟩ := enabled_iff.1 hs
    have hc : Inv { s with cancels := s.cancels + 1 } := { h with }
    exact hc.moves (by simp [hp, StartPc.Quiet]) (by simp [StartPc.Quiet]) (by rw [hp]; exact id)
      (by rw [hp]; exact id)
  | armDeferred => exact h.armDeferred hs
  | check =>
    simp only [OperationState.step] at hs
    split at hs
    · rename_i e hp
      obtain rfl := Option.some.inj hs
      obtain ⟨rfl, hphase⟩ := h.start_at hp
      have hresult : s.result = some .pending := h.result_at hp
      have ha : Inv { s with asserts := s.asserts && true } :=
        { h with asserts := by simp [h.asserts] }
      exact ha.move (by simp [hp, StartPc.Quiet]) (by simp [StartPc.Quiet]) hphase
        (by simp [hresult, StartPc.Result]) h.completed
    · cases hs
  | post => exact h.post hs (.inl rfl)
  | wakeup => exact h.post hs (.inr rfl)
  | test spurious =>
    simp only [OperationState.step] at hs
    split at hs
    · split at hs
      · rename_i hp
        obtain rfl := Option.some.inj hs
        have hstart := h.start
        rw [hp.1] at hstart
        exact { h with
          exchanged := by simpa [hp.1] using h.exchanged
          start := hstart.cancelDeferred }
      · obtain rfl := Option.some.inj hs
        exact { h with }
    · obtain rfl := Option.some.inj hs
      exact { h with }
    · obtain rfl := Option.some.inj hs
      exact { h with }
    · cases hs
  | publish c =>
    obtain ⟨⟨hp, -⟩, rfl⟩ := enabled_iff.1 hs
    exact { h with
      exchanged := by simpa [hp, PublishPc.Exchanged] using h.exchanged
      previous := by simp
      posting := by simp
      completed := by simp
      posts := by simpa [hp] using h.posts }
  | exchange => exact h.exchange hs
  | testPrevious => exact h.testPrevious hs
  | publishPost => exact h.publishPost hs (.inl rfl)
  | publishWakeup => exact h.publishPost hs (.inr rfl)
  | stop | load | requestCancelReturns | dequeue | workFinished | reset =>
    obtain ⟨-, rfl⟩ := enabled_iff.1 hs
    exact { h with }

theorem Inv.reachable (h : (system b).Reachable s) : Inv s :=
  System.Invariant.reachable ⟨Inv.init, fun _ _ _ _ => Inv.step⟩ h

end OperationState
end Coio
