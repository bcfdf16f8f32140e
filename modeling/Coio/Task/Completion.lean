import Coio.Task.Model

namespace Coio.Task
open Function (update)
open Machine
set_option autoImplicit true

namespace Chain
variable (c : Chain T A S F α ε)

/-- What the receiver gets when the coroutine `k` ends with `r`, and each one before it goes on. -/
def deliver : Nat → Except ε α → Except ε α
  | 0, r => r
  | k + 1, r => deliver k (c.after k r)

/-- The matching channel of the outer receiver. -/
def delivered : Completion α ε :=
  match c.ending with
  | .value a => .ofResult (c.deliver c.depth (.ok a))
  | .error e => .ofResult (c.deliver c.depth (.error e))
  | .stopped => .stopped

/-- The coroutines from `k` to the outermost one, each with the type of its own promise. -/
def own : Nat → List (Nat × Promise T A S F)
  | 0 => [(0, c.promise 0)]
  | k + 1 => (k + 1, c.promise (k + 1)) :: own k

/-- The states of the chain down to `k`, each pointing to the one before it. -/
structure Awaiting (k : Nat) (s : State (Promise T A S F) α ε) : Prop where
  outermost : s.state_ 0 = match c.outermost with
    | .task .. => some .task_operation
    | .foreign _ => none
  awaiter : ∀ j < k, s.state_ (j + 1) = some (.task_awaiter (c.promise (j + 1)) (c.promise j) j)

/-- Nothing has happened yet but the calls of `unhandled_stopped()`. -/
structure Pending (s : State (Promise T A S F) α ε) : Prop where
  awaiting : c.Awaiting c.depth s
  result_ : ∀ k, s.result_ k = none
  completions : s.completions = []
  resumed : s.resumed = []

variable {c}

/-- Bodies that return on a value and let exceptions pass keep the channel of the innermost one. -/
theorem deliver_ok (h : ∀ k a, ∃ b, c.after k (.ok a) = .ok b) (k : Nat) (a : α) :
    ∃ b, c.deliver k (.ok a) = .ok b := by
  induction k generalizing a with
  | zero => exact ⟨a, rfl⟩
  | succ k ih =>
    obtain ⟨b, hb⟩ := h k a
    unfold deliver
    rw [hb]
    exact ih b

theorem deliver_error (h : ∀ k e, c.after k (.error e) = .error e) (k : Nat) (e : ε) :
    c.deliver k (.error e) = .error e := by
  induction k with
  | zero => rfl
  | succ k ih =>
    unfold deliver
    rw [h k e]
    exact ih

theorem delivered_channel (hok : ∀ k a, ∃ b, c.after k (.ok a) = .ok b)
    (herror : ∀ k e, c.after k (.error e) = .error e) : match c.ending with
      | .value _ => ∃ b, c.delivered = .value b
      | .error e => c.delivered = .error e
      | .stopped => c.delivered = .stopped := by
  unfold delivered
  cases c.ending with
  | value a =>
    obtain ⟨b, hb⟩ := deliver_ok hok c.depth a
    exact ⟨b, congrArg Completion.ofResult hb⟩
  | error e => exact congrArg Completion.ofResult (deliver_error herror c.depth e)
  | stopped => rfl

theorem mem_own (hk : k ≤ n) : (k, c.promise k) ∈ c.own n := by
  induction n with
  | zero =>
    obtain rfl := Nat.le_zero.1 hk
    exact .head _
  | succ n ih =>
    rcases Nat.lt_or_eq_of_le hk with hk | rfl
    · exact .tail _ (ih (Nat.lt_succ_iff.1 hk))
    · exact .head _

/-- `complete()` goes to the awaiting coroutine through the promise type of the awaited one. -/
structure Through (s : State (Promise T A S F) α ε) : Prop where
  start : ∀ k, s.control = .start k → k ≤ c.depth
  awaiter : ∀ j p q k, s.state_ j = some (.task_awaiter p q k) → j = k + 1 ∧ p = c.promise j
  next : ∀ k p, s.control = .unhandled_stopped k p → k = c.depth ∨ p = c.promise (k + 1)
  stops : ∀ k p, (k, p) ∈ s.stops → k = c.depth ∨ p = c.promise (k + 1)

/-- A step that neither starts a body nor stops one keeps this. -/
theorem Through.quiet {s t : State (Promise T A S F) α ε} (h : c.Through s)
    (hstate : t.state_ = s.state_) (hstops : t.stops = s.stops)
    (hc : t.control = .done ∨ t.control = .undefined ∨ ∃ k, t.control = .complete k ∨
      t.control = .resume k) : c.Through t := by
  refine ⟨fun k hk => ?_, fun j p q k hj => ?_, fun k p hk => ?_, fun k p hk => ?_⟩
  · rw [hk] at hc
    simp at hc
  · exact h.awaiter j p q k (hstate ▸ hj)
  · rw [hk] at hc
    simp at hc
  · exact h.stops k p (hstops ▸ hk)

theorem Through.initial : c.Through c.initial := by
  refine ⟨fun k hk => ?_, fun j p q k hj => ?_, nofun, nofun⟩
  · cases hk
    exact Nat.zero_le _
  · unfold Chain.initial at hj
    cases ho : c.outermost with
    | task v a k =>
      simp only [ho, Function.update_apply] at hj
      split at hj <;> cases hj
    | foreign f =>
      simp only [ho] at hj
      cases hj

theorem Through.finish {s : State (Promise T A S F) α ε} (h : c.Through s) :
    c.Through (c.finish s k r) := by
  unfold Chain.finish
  split
  · exact h.quiet rfl rfl (.inr (.inr ⟨k, .inl rfl⟩))
  · exact h.quiet rfl rfl (.inl rfl)

theorem Through.start_step {s : State (Promise T A S F) α ε} (h : c.Through s)
    (hs : s.control = .start k) : c.Through (c.start s k) := by
  unfold Chain.start
  split
  · rename_i hlt
    refine ⟨fun j hj => ?_, fun j p q i hj => ?_, nofun, h.stops⟩
    · cases hj
      exact hlt
    · by_cases hjk : j = k + 1
      · subst hjk
        simp only [Function.update_self] at hj
        cases hj
        exact ⟨rfl, rfl⟩
      · simp only [Function.update_of_ne hjk] at hj
        exact h.awaiter j p q i hj
  · split
    · exact h.finish
    · exact h.finish
    · refine ⟨nofun, h.awaiter, fun j p hj => ?_, h.stops⟩
      cases hj
      have := h.start k hs
      exact .inl (by omega)

theorem Through.complete_step {s : State (Promise T A S F) α ε} (h : c.Through s) :
    c.Through (s.complete k) := by
  unfold State.complete
  split
  · exact h.quiet rfl rfl (.inr (.inl rfl))
  · split
    · exact h.quiet rfl rfl (.inl rfl)
    · exact h.quiet rfl rfl (.inl rfl)
  · rename_i p q j hstate
    split
    · refine ⟨nofun, h.awaiter, fun i p hi => ?_, h.stops⟩
      cases hi
      obtain ⟨rfl, rfl⟩ := h.awaiter _ _ _ _ hstate
      exact .inr rfl
    · exact h.quiet rfl rfl (.inr (.inr ⟨j, .inr rfl⟩))

variable [DecidableEq T] [DecidableEq A] [DecidableEq S] [DecidableEq F]

/-- The outer receiver is completed once, with the matching channel. On stop no coroutine is
resumed, and `unhandled_stopped()` is called on the promise of each, at its own type. -/
def Completes (c : Chain T A S F α ε) : Prop :=
  ∃ s, Leads c.step c.initial s ∧ s.control = .done ∧ s.completions = [c.delivered] ∧
    (c.ending = .stopped → s.resumed = [] ∧ s.stops = c.own c.depth)

/-- The first `k` coroutines await one another. -/
theorem descends (hk : k ≤ c.depth) : ∃ s, Leads c.step c.initial s ∧ s.control = .start k ∧
    c.Awaiting k s ∧ (∀ j, s.result_ j = none) ∧ s.completions = [] ∧ s.resumed = [] ∧
    s.stops = [] := by
  induction k with
  | zero =>
    refine ⟨c.initial, .refl c.step _, rfl, ⟨?_, fun j hj => absurd hj (Nat.not_lt_zero j)⟩,
      fun _ => rfl, rfl, rfl, rfl⟩
    unfold initial
    cases c.outermost with
    | task v a k =>
      change update (fun _ : Nat => none) 0 (some TaskState.task_operation) 0 = _
      exact Function.update_self 0 _ _
    | foreign f => rfl
  | succ k ih =>
    obtain ⟨s, hs, hc, ha, hr⟩ := ih (Nat.le_of_succ_le hk)
    have hnew : ∀ j, j ≠ k + 1 → update s.state_ (k + 1)
        (some (.task_awaiter (c.promise (k + 1)) (c.promise k) k)) j = s.state_ j :=
      fun j hj => Function.update_of_ne hj ..
    have hstep : c.step s = { s with
        state_ := update s.state_ (k + 1) (some (.task_awaiter (c.promise (k + 1)) (c.promise k) k))
        control := .start (k + 1) } := by
      unfold step
      rw [hc]
      exact if_pos (Nat.lt_of_succ_le hk)
    refine ⟨_, hs.trans (.head hstep (.refl c.step _)), rfl, ⟨?_, fun j hj => ?_⟩, hr⟩
    · exact (hnew 0 (Nat.succ_ne_zero k).symm).trans ha.outermost
    · rcases Nat.lt_succ_iff_lt_or_eq.1 hj with hj | rfl
      · exact (hnew (j + 1) (by omega)).trans (ha.awaiter j hj)
      · exact Function.update_self (j + 1) _ s.state_

/-- A coroutine that ends with `r` makes each one before it go on, up to the receiver. -/
theorem finish_leads {s : State (Promise T A S F) α ε} (ha : c.Awaiting c.depth s)
    (hk : k ≤ c.depth) (hnone : s.completions = []) : ∃ t, Leads c.step (c.finish s k r) t ∧
      t.control = .done ∧ t.completions = [.ofResult (c.deliver k r)] := by
  induction k generalizing s r with
  | zero =>
    have hout := ha.outermost
    cases ho : c.outermost with
    | task v a k =>
      rw [ho] at hout
      have hstep : c.step (c.finish s 0 r) = { s with
          result_ := update s.result_ 0 (some r)
          completions := s.completions ++ [.ofResult r]
          control := .done } := by
        simp only [finish, promise, ho, step, State.complete, hout, Function.update_self,
          State.receive]
      refine ⟨_, .head hstep (.refl _ _), rfl, ?_⟩
      rw [hnone]
      rfl
    | foreign f =>
      have hfinish : c.finish s 0 r = s.receive (.ofResult r) := by
        simp only [finish, promise, ho]
      rw [hfinish]
      refine ⟨_, .refl _ _, rfl, ?_⟩
      change s.completions ++ _ = _
      rw [hnone]
      rfl
  | succ k ih =>
    have hstate := ha.awaiter k hk
    have hresume : c.step (c.finish s (k + 1) r) = { s with
        result_ := update s.result_ (k + 1) (some r)
        resumed := s.resumed ++ [k]
        control := .resume k } := by
      simp only [finish, promise, step, State.complete, hstate, Function.update_self]
    obtain ⟨t, ht, hdone⟩ := ih (s := { s with
        result_ := update s.result_ (k + 1) (some r)
        resumed := s.resumed ++ [k]
        control := .resume k }) (r := c.after k r) ⟨ha.outermost, ha.awaiter⟩
        (Nat.le_of_succ_le hk) hnone
    refine ⟨t, .head hresume (.head ?_ ht), hdone⟩
    simp only [step, resume, Function.update_self]

/-- `unhandled_stopped()` climbs to the receiver where each coroutine has the promise type of the
one that it awaits. -/
theorem stop_leads {s : State (Promise T A S F) α ε} (hp : c.Pending s) (hk : k ≤ c.depth)
    (hc : s.control = .unhandled_stopped k (c.promise k))
    (hsame : ∀ j < k, c.promise j = c.promise (j + 1)) : ∃ t, Leads c.step s t ∧
      t.control = .done ∧ t.completions = [.stopped] ∧ t.resumed = [] ∧
      t.stops = s.stops ++ c.own k := by
  induction k generalizing s with
  | zero =>
    have hout := hp.awaiting.outermost
    cases ho : c.outermost with
    | task v a k =>
      rw [ho] at hout
      have hcomplete : c.step s = { s with
          stops := s.stops ++ [(0, c.promise 0)], control := .complete 0 } := by
        simp only [step, hc, unhandled_stopped, promise, ho, if_true]
      refine ⟨_, .head hcomplete (.head rfl (.refl _ _)), ?_⟩
      simp only [step, State.complete, hout, hp.result_ 0, State.receive, hp.completions,
        hp.resumed]
      exact ⟨trivial, rfl, trivial, rfl⟩
    | foreign f =>
      have hreceive : c.step s = { s with
          stops := s.stops ++ [(0, c.promise 0)]
          completions := s.completions ++ [.stopped]
          control := .done } := by
        simp only [step, hc, unhandled_stopped, promise, ho, if_true, State.receive]
      refine ⟨_, .head hreceive (.refl _ _), rfl, ?_, hp.resumed, rfl⟩
      change s.completions ++ _ = _
      rw [hp.completions]
      rfl
  | succ k ih =>
    have hstate := hp.awaiting.awaiter k hk
    have hcomplete : c.step s = { s with
        stops := s.stops ++ [(k + 1, c.promise (k + 1))], control := .complete (k + 1) } := by
      simp only [step, hc, unhandled_stopped, promise, if_true]
    have hclimb : c.step { s with
        stops := s.stops ++ [(k + 1, c.promise (k + 1))], control := .complete (k + 1) } =
        { s with
          stops := s.stops ++ [(k + 1, c.promise (k + 1))]
          control := .unhandled_stopped k (c.promise k) } := by
      rw [hsame k (Nat.lt_succ_self k)]
      simp only [step, State.complete, hstate, hp.result_]
    obtain ⟨t, ht, hdone, hcompletions, hresumed, hstops⟩ := ih (s := { s with
        stops := s.stops ++ [(k + 1, c.promise (k + 1))]
        control := .unhandled_stopped k (c.promise k) })
        ⟨⟨hp.awaiting.outermost, hp.awaiting.awaiter⟩, hp.result_, hp.completions, hp.resumed⟩
        (Nat.le_of_succ_le hk) rfl (fun j hj => hsame j (Nat.lt_succ_of_lt hj))
    refine ⟨t, .head hcomplete (.head hclimb ht), hdone, hcompletions, hresumed, ?_⟩
    rw [hstops, List.append_assoc]
    rfl

theorem Through.unhandled_stopped_step {s : State (Promise T A S F) α ε} (h : c.Through s)
    (hs : s.control = .unhandled_stopped k p) : c.Through (c.unhandled_stopped s k p) := by
  have hstops : ∀ j q, (j, q) ∈ s.stops ++ [(k, p)] → j = c.depth ∨ q = c.promise (j + 1) := by
    intro j q hj
    rcases List.mem_append.1 hj with hj | hj
    · exact h.stops j q hj
    · cases List.mem_singleton.1 hj
      exact h.next k p hs
  unfold Chain.unhandled_stopped
  dsimp only
  split
  · split
    · exact ⟨nofun, h.awaiter, nofun, hstops⟩
    · exact ⟨nofun, h.awaiter, nofun, hstops⟩
  · exact ⟨nofun, h.awaiter, nofun, hstops⟩

theorem Through.step {s : State (Promise T A S F) α ε} (h : c.Through s) :
    c.Through (c.step s) := by
  unfold Chain.step
  cases hs : s.control with
  | start k => exact h.start_step hs
  | complete k => exact h.complete_step
  | resume k =>
    dsimp only
    unfold Chain.resume
    split
    · exact h.quiet rfl rfl (.inr (.inl rfl))
    · exact h.finish
  | unhandled_stopped k p => exact h.unhandled_stopped_step hs
  | done => exact h
  | undefined => exact h

/-- Each type at which `unhandled_stopped()` is called is that of the awaited promise. -/
theorem Completes.types (h : c.Completes) (he : c.ending = .stopped) (hk : k < c.depth) :
    c.promise k = c.promise (k + 1) := by
  obtain ⟨t, ht, -, -, hstopped⟩ := h
  have hthrough : c.Through t := ht.invariant .initial fun _ hu => hu.step
  have hmem : (k, c.promise k) ∈ t.stops := by
    rw [(hstopped he).2]
    exact mem_own (Nat.le_of_lt hk)
  rcases hthrough.stops _ _ hmem with hd | hp
  · exact absurd hd (Nat.ne_of_lt hk)
  · exact hp

variable (c)

/-- A chain completes unless its innermost task is stopped below two coroutines that have different
types of promise. -/
theorem completes_iff : c.Completes ↔
    (c.ending = .stopped → ∀ k < c.depth, c.promise k = c.promise (k + 1)) := by
  constructor
  · exact fun h he k hk => h.types he hk
  · intro hsame
    obtain ⟨s, hs, hcontrol, ha, hresult, hcompletions, hresumed, hstops⟩ :=
      c.descends (Nat.le_refl _)
    have hstep : c.step s = match c.ending with
        | .value a => c.finish s c.depth (.ok a)
        | .error e => c.finish s c.depth (.error e)
        | .stopped => { s with control := .unhandled_stopped c.depth (c.promise c.depth) } := by
      unfold step
      rw [hcontrol]
      exact if_neg (Nat.lt_irrefl _)
    unfold Completes delivered
    cases he : c.ending with
    | value a =>
      rw [he] at hstep
      obtain ⟨t, ht, hdone, hc⟩ := finish_leads (r := .ok a) ha (Nat.le_refl _) hcompletions
      exact ⟨t, hs.trans (.head hstep ht), hdone, hc, nofun⟩
    | error e =>
      rw [he] at hstep
      obtain ⟨t, ht, hdone, hc⟩ := finish_leads (r := .error e) ha (Nat.le_refl _) hcompletions
      exact ⟨t, hs.trans (.head hstep ht), hdone, hc, nofun⟩
    | stopped =>
      rw [he] at hstep
      obtain ⟨t, ht, hdone, hc, hr, hst⟩ := stop_leads (c := c)
        (s := { s with control := .unhandled_stopped c.depth (c.promise c.depth) })
        ⟨⟨ha.outermost, ha.awaiter⟩, hresult, hcompletions, hresumed⟩ (Nat.le_refl _) rfl (hsame he)
      refine ⟨t, hs.trans (.head hstep ht), hdone, hc, fun _ => ⟨hr, ?_⟩⟩
      rw [hst, show State.stops _ = [] from hstops, List.nil_append]

/-- A coroutine whose promise is not that of a task awaits a task that is stopped. -/
def stoppedTask : Chain Unit Unit Unit Unit Unit Unit where
  depth := 1
  outermost := .foreign ()
  inner := fun _ => ((), (), ())
  after := fun _ r => r
  ending := .stopped

theorem stopped_below_foreign : ¬ stoppedTask.Completes := by
  intro h
  have htypes : stoppedTask.promise 0 = stoppedTask.promise 1 := h.types rfl Nat.one_pos
  cases htypes

end Chain

end Coio.Task
