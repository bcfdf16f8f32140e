import Coio.TimeLoop.Invariant

namespace Coio.TimeLoop
open Transition LoopBase Tally
set_option autoImplicit true

variable [DecidableEq ι] [LinearOrder τ] {stoppable : ι → Bool} {s s' : State ι σ γ τ}

/-- A thread that publishes while the consumer checks is not the consumer's. -/
theorem Inv.publisherHere [DecidableEq σ] [DecidableEq γ] (h : Inv stoppable s)
    (hc : s.consumer.Checked) (hp : Publishing (s.loop.op i).publish) :
    s.publisherHere i = false := by
  have hcalls := h.calls_of_checked hc
  cases hcaller : (s.loop.op i).caller with
  | backend =>
    obtain ⟨b, hb⟩ := h.backend i hp hcaller
    rw [hb] at hc
    exact hc.elim
  | start | startCancel | requestCancel => simp [State.publisherHere, hcaller, hcalls]

/-- What a step of an operation does to the context. -/
theorem Inv.effect_spec [DecidableEq σ] [DecidableEq γ] {here : Bool} (h : Inv stoppable s)
    (hhere : here → s.consumer.inUser) (a : OperationState.Act) :
    ∃ c q n t, s.effect i here a =
        { s with calls := c, queue := q, workCount := n, tokens := t } ∧
      (c ≠ [] → s.consumer.inUser) ∧
      q = s.queue ++ (if a = .post ∨ a = .publishPost then [.timer i] else []) ∧
      n = s.workCount + (if a = .workStarted then 1 else 0) ∧ s.tokens ≤ t ∧
      (s.consumer.Checked → a = .wakeup → 0 < t) ∧
      (s.consumer.Checked → a = .publishWakeup → (s.loop.op i).publish = .wakeup → 0 < t) := by
  cases a with
  | workStarted | stop =>
    cases here with
    | false =>
      exact ⟨s.calls, s.queue, _, s.tokens, rfl, h.calls, by simp, by simp, le_rfl,
        by rintro - ⟨⟩, by rintro - ⟨⟩⟩
    | true =>
      exact ⟨_, s.queue, _, s.tokens, rfl, fun _ => hhere rfl, by simp, by simp,
        le_rfl, by rintro - ⟨⟩, by rintro - ⟨⟩⟩
  | emplace requested =>
    by_cases hr : (requested && decide (Call.start i ∈ s.calls)) = true
    · refine ⟨.requestCancel i :: s.calls, s.queue, s.workCount, s.tokens,
        by simp only [State.effect, State.enter, hr, if_true], fun _ => ?_, by simp, by simp,
        le_rfl, by rintro - ⟨⟩, by rintro - ⟨⟩⟩
      have hm : Call.start i ∈ s.calls := by simp_all
      exact h.calls (List.ne_nil_of_mem hm)
    · exact ⟨s.calls, s.queue, s.workCount, s.tokens,
        by simp only [State.effect, State.enter, hr]; rfl, h.calls, by simp, by simp, le_rfl,
        by rintro - ⟨⟩, by rintro - ⟨⟩⟩
  | post | publishPost =>
    exact ⟨s.calls, _, s.workCount, s.tokens, rfl, h.calls, by simp, by simp, le_rfl,
      by rintro - ⟨⟩, by rintro - ⟨⟩⟩
  | wakeup =>
    by_cases hm : Call.start i ∈ s.calls
    · refine ⟨s.calls, s.queue, s.workCount, s.tokens,
        by simp [State.effect, State.wakeupConsumer, hm], h.calls, by simp, by simp, le_rfl,
        fun hc => ?_, by rintro - ⟨⟩⟩
      simp [h.calls_of_checked hc] at hm
    · exact ⟨s.calls, s.queue, s.workCount, s.tokens + 1,
        by simp [State.effect, State.wakeupConsumer, hm], h.calls, by simp, by simp, by omega,
        fun _ _ => by omega, by rintro - ⟨⟩⟩
  | publishWakeup =>
    cases hm : s.publisherHere i with
    | true =>
      refine ⟨s.calls, s.queue, s.workCount, s.tokens,
        by simp [State.effect, State.wakeupConsumer, hm], h.calls, by simp, by simp, le_rfl,
        by rintro - ⟨⟩,
        fun hc _ hp => ?_⟩
      rw [h.publisherHere hc (by rw [hp]; trivial)] at hm
      cases hm
    | false =>
      exact ⟨s.calls, s.queue, s.workCount, s.tokens + 1,
        by simp [State.effect, State.wakeupConsumer, hm], h.calls, by simp, by simp, by omega,
        by rintro - ⟨⟩, fun _ _ _ => by omega⟩
  | _ =>
    exact ⟨s.calls, s.queue, s.workCount, s.tokens, rfl, h.calls, by simp, by simp, le_rfl,
      by rintro - ⟨⟩, by rintro - ⟨⟩⟩

/-- An operation that is posted was not posted before. -/
theorem posts_eq_zero (hr : (OperationState.system b).Reachable o') (hp : o'.posts = o.posts + 1)
    (hq : (OperationState.system b).Reachable o) : o.posts = 0 ∧ o.finish = .queued := by
  have hone := ((OperationState.invariants hr).1.posted (by omega)).1
  have hzero : o.posts = 0 := by omega
  refine ⟨hzero, ?_⟩
  by_contra hf
  have := (OperationState.invariants hq).2.2.posted hf
  omega

attribute [local grind =] Function.update_apply

/-- Only `work_started()` and `work_finished()` change the work of an operation. -/
theorem opWork_of_frame {o o' : OperationState.State} (hr : (OperationState.system b).Reachable o)
    (hf : OpFrame a o o') (hs : a = .workStarted → o.start = .workStarted) :
    opWork o' = opWork o + if a = .workStarted then 1 else 0 := by
  have hfinish := hf.finish
  have hstarted := hf.started
  have hi := OperationState.invariants hr
  have hposted := hi.2.2.posted
  have hposts := hi.1.posts
  by_cases ha : a = .workStarted
  · have hq : o.finish = .queued := by
      by_contra hq
      have := hposted hq
      have := hi.1.posted this
      have hstart := hs ha
      simp [hstart, OperationState.StartPc.Touches] at this
    simp only [opWork]
    grind
  · simp only [opWork]
    grind

/-- A step of an operation outside `finish()`. -/
theorem Inv.op [DecidableEq σ] [DecidableEq γ] (h : Inv stoppable s)
    (hs : TimeLoop.step stoppable s (.op i a here) = some s') : Inv stoppable s' := by
  obtain ⟨⟨ha, hhere, -⟩, hs⟩ := Option.ite_none_right_eq_some.1 hs
  obtain ⟨s1, hs1, rfl⟩ := Option.map_eq_some_iff.1 hs
  obtain ⟨l, hl, rfl⟩ := Option.map_eq_some_iff.1 hs1
  obtain ⟨c, q, n, t, he, hc, hq, hn, ht, hw, hp⟩ := h.effect_spec hhere a
  rw [he] at hl ⊢
  have hloop := h.loop.step hl
  obtain ⟨-, hl⟩ := Option.ite_none_right_eq_some.1 hl
  obtain ⟨o, ho, rfl⟩ := Option.map_eq_some_iff.1 hl
  have hf := OpFrame.of_step ha ho
  have hwork := opWork_of_frame (h.loop.op i).reachable hf fun hst => by
    rw [hst] at ho
    exact (enabled_iff.1 ho).1
  have hmono : s.consumer.Checked → s.Covered → State.Covered { s with
      loop := { s.loop with op := Function.update s.loop.op i o }
      calls := c, queue := q, workCount := n, tokens := t } := fun hch hcov => by
    refine hcov.mono ht fun w hwk => ?_
    cases w with
    | start j =>
      have := hf.wakeup
      simp only [State.Waking] at hwk ⊢
      grind
    | publish j =>
      have := hf.publishWakeup
      simp only [State.Waking] at hwk ⊢
      grind
    | add j => exact .inl hwk
    | schedule x => exact .inl hwk
    | guard g => exact .inl hwk
    | stop => exact .inl hwk
  have hpost : a = .post ∨ a = .publishPost →
      (s.loop.op i).posts = 0 ∧ (s.loop.op i).finish = .queued := fun hap =>
    posts_eq_zero ((h.loop.op i).reachable.step
      (show (OperationState.system _).step _ a = some o from ho)) (by
        rw [hf.posts, if_pos hap]) (h.loop.op i).reachable
  refine Inv.leave ?_
  exact { h with
    loop := hloop
    calls := hc
    backend := fun j => by
      have := h.backend j
      have := hf.publishing
      grind
    count := by
      obtain ⟨x, y, z, hx, hy, hz, hsum⟩ := h.count
      exact ⟨x + (if a = .workStarted then 1 else 0), y, z, hx.update (by grind), hy, hz,
        by grind⟩
    nodup := by
      have := h.nodup
      have := h.timer i
      grind
    timer := fun j => by
      have := h.timer j
      have := hf.posts
      have := hf.finish
      grind
    sched := fun x => by
      have := h.sched x
      grind
    posted := fun x => by
      have := h.posted x
      grind
    finishing := fun j => by
      have := h.finishing j
      have := hf.finish
      grind
    resetting := fun j => by
      have := h.resetting j
      have := hf.finish
      grind
    queue := fun hwt hne => by
      by_cases hpost : a = .post ∨ a = .publishPost
      · right
        rcases hpost with hpost | hpost
        · exact ⟨.start i, by simpa [State.Waking] using hf.posted hpost⟩
        · exact ⟨.publish i, by simpa [State.Waking] using hf.published hpost⟩
      · rw [if_neg hpost, List.append_nil] at hq
        exact hmono hwt.checked (h.queue hwt (hq ▸ hne))
    work := fun hch h0 => hmono hch (h.work hch (by
      dsimp only at h0
      omega))
    timers := fun b hb j hj =>
      (h.timers b hb j hj).imp_right (hmono (ConsumerPc.checked_of_wait hb)) }

/-- A timer enters the heap; its thread wakes the consumer up if it is the new root. -/
theorem Inv.add [DecidableEq σ] [DecidableEq γ] (h : Inv stoppable s)
    (hs : TimeLoop.step stoppable s (.add i) = some s') : Inv stoppable s' := by
  obtain ⟨l, hl, rfl⟩ := Option.map_eq_some_iff.1 hs
  have hloop := h.loop.step hl
  obtain ⟨⟨-, -, hout⟩, rfl⟩ := enabled_iff.1 hl
  have hout : s.loop.place i = .out := hout
  obtain ⟨S, hS, hmem⟩ := h.loop.heap
  have hi : i ∉ S := by simp [hmem, hout]
  obtain ⟨-, hdeadline, hroot⟩ := hS.add hi
  have hadded : s.added i ≠ true := fun ha => h.added i ha hout
  have hmono : s.Covered → State.Covered { s with
      added := Function.update s.added i (s.loop.timers.add i).2
      loop := { s.loop.put i with timers := (s.loop.timers.add i).1 } } := fun hcov => by
    refine hcov.mono le_rfl fun w hwk => ?_
    cases w with
    | add j =>
      simp only [State.Waking] at hwk ⊢
      grind
    | start j => exact .inl hwk
    | publish j => exact .inl hwk
    | schedule x => exact .inl hwk
    | guard g => exact .inl hwk
    | stop => exact .inl hwk
  exact { h with
    loop := hloop
    added := by
      have := h.added
      simp only [LoopBase.State.put]
      grind
    queue := fun hw hne => hmono (h.queue hw hne)
    work := fun hw h0 => hmono (h.work hw h0)
    timers := fun b hb j hj => by
      dsimp only at hb hj ⊢
      rw [hdeadline]
      by_cases hji : j = i
      · subst hji
        by_cases hr : (s.loop.timers.add j).2 = true
        · exact .inr (.inr ⟨.add j, by simpa [State.Waking] using hr⟩)
        · rw [hroot] at hr
          simp only [not_forall, not_lt] at hr
          obtain ⟨k, hk, hle⟩ := hr
          rcases h.timers b hb k ((hmem k).1 hk).2 with ⟨d, hd, hdk⟩ | hcov
          · exact .inl ⟨d, hd, hdk.trans hle⟩
          · exact .inr (hmono hcov)
      · exact (h.timers b hb j (by simpa [LoopBase.State.put, hji] using hj)).imp_right hmono }

/-- A wakeup releases a token, unless it is the consumer's thread that would wake itself up. -/
theorem Inv.woken [DecidableEq σ] [DecidableEq γ] (h : Inv stoppable s)
    (hc : s.consumer.Checked) (c : Call ι σ γ) :
    0 < (s.wakeupConsumer (decide (c ∈ s.calls))).tokens := by
  simp [State.wakeupConsumer, h.calls_of_checked hc]

/-- After a wakeup everything is covered. -/
theorem Inv.wakeup [DecidableEq σ] [DecidableEq γ] (h : Inv stoppable s) (c : Call ι σ γ) :
    Inv stoppable (s.wakeupConsumer (decide (c ∈ s.calls))) ∧
      (s.consumer.Checked → 0 < (s.wakeupConsumer (decide (c ∈ s.calls))).tokens) := by
  refine ⟨?_, fun hc => h.woken hc c⟩
  have hw := fun hc => h.woken hc c
  rw [wakeupConsumer_eq]
  exact { h with
    queue := fun hc _ => .inl (hw hc.checked)
    work := fun hc _ => .inl (hw hc)
    timers := fun b hb _ _ => .inr (.inl (hw (ConsumerPc.checked_of_wait hb))) }

theorem Inv.added_step [DecidableEq σ] [DecidableEq γ] (h : Inv stoppable s)
    (hs : TimeLoop.step stoppable s (.added i) = some s') : Inv stoppable s' := by
  obtain ⟨-, rfl⟩ := enabled_iff.1 hs
  obtain ⟨h1, ht⟩ := h.wakeup (.start i)
  rw [wakeupConsumer_eq] at h1 ⊢
  exact { h1 with
    added := by
      have := h1.added
      grind
    queue := fun hc _ => .inl (ht hc.checked)
    work := fun hc _ => .inl (ht hc)
    timers := fun b hb _ _ => .inr (.inl (ht (ConsumerPc.checked_of_wait hb))) }

/-- The call begins on the consumer's thread only when user code runs there. -/
theorem Inv.enter {here : Bool} (h : Inv stoppable s) (hhere : here → s.consumer.inUser)
    (c : Call ι σ γ) : ∃ l, s.enter c here = { s with calls := l } ∧
      (l ≠ [] → s.consumer.inUser) := by
  cases here with
  | false => exact ⟨s.calls, rfl, h.calls⟩
  | true => exact ⟨c :: s.calls, rfl, fun _ => hhere rfl⟩

variable [DecidableEq σ] [DecidableEq γ]

omit [DecidableEq σ] [DecidableEq γ] in
/-- Timers leave the heap. -/
theorem Inv.setLoop (h : Inv stoppable s) (hloop : LoopBase.Inv (fun _ => true) stoppable l)
    (hop : l.op = s.loop.op) (hd : l.timers.deadline = s.loop.timers.deadline)
    (hp : ∀ j, l.place j = s.loop.place j ∨ ∃ t, l.place j = .taken t) :
    Inv stoppable { s with loop := l } := by
  obtain ⟨timers, op, canceled, holding, place, takes, publishes⟩ := l
  dsimp only at hop hd hp
  subst hop
  have hmono : s.Covered → State.Covered _ := fun hcov =>
    hcov.mono (t := { s with
      loop := ⟨timers, s.loop.op, canceled, holding, place, takes, publishes⟩ }) le_rfl
      fun w hwk => .inl (by cases w <;> exact hwk)
  exact { h with
    loop := hloop
    added := fun j hj => by
      have := h.added j hj
      have := hp j
      grind
    queue := fun hw hne => hmono (h.queue hw hne)
    work := fun hw h0 => hmono (h.work hw h0)
    timers := fun b hb j hj => by
      dsimp only at hb hj ⊢
      rw [hd]
      refine (h.timers b hb j ?_).imp_right hmono
      have := hp j
      grind }

theorem Inv.remove (h : Inv stoppable s)
    (hs : TimeLoop.step stoppable s (.remove i t fuel) = some s') : Inv stoppable s' := by
  obtain ⟨l, hl, rfl⟩ := Option.map_eq_some_iff.1 hs
  obtain ⟨hop, hd, hp⟩ := h.loop.remove_spec hl
  exact h.setLoop (h.loop.step hl) hop hd fun j => (hp j).imp_right fun hj => ⟨t, hj⟩

omit [DecidableEq σ] [DecidableEq γ] in
/-- A taker calls `publish()`. -/
theorem Inv.setPublish (h : Inv stoppable s)
    (hl : LoopBase.step (fun _ => true) stoppable s.loop (.publish t i) = some l)
    (hb : t.caller = .backend → ∃ b, s.consumer = .publishing i b) :
    Inv stoppable { s with loop := l } := by
  have hloop := h.loop.step hl
  obtain ⟨⟨o, hop, ho⟩, hidle, htimers, hp⟩ := h.loop.publish_spec hl
  have hopj : ∀ j, l.op j = if j = i then o else s.loop.op j := fun j => by
    rw [hop, Function.update_apply]
  have hmono : s.Covered → State.Covered { s with loop := l } := fun hcov =>
    hcov.mono le_rfl fun w hwk => by
      cases w with
      | start j =>
        simp only [State.Waking] at hwk ⊢
        grind
      | publish j =>
        simp only [State.Waking] at hwk ⊢
        grind
      | add j => exact .inl hwk
      | schedule x => exact .inl hwk
      | guard g => exact .inl hwk
      | stop => exact .inl hwk
  exact { h with
    loop := hloop
    backend := by
      have := h.backend
      grind
    count := by
      obtain ⟨x, y, z, hx, hy, hz, hsum⟩ := h.count
      dsimp only
      rw [hop]
      exact ⟨x, y, z, hx.update (by simp [opWork, ho]), hy, hz, hsum⟩
    added := by
      have := h.added
      grind
    timer := by
      have := h.timer
      grind
    finishing := by
      have := h.finishing
      grind
    resetting := by
      have := h.resetting
      grind
    queue := fun hw hne => hmono (h.queue hw hne)
    work := fun hw h0 => hmono (h.work hw h0)
    timers := fun b hb j hj => by
      dsimp only at hj ⊢
      rw [htimers]
      exact (h.timers b hb j (by grind)).imp_right hmono }

/-- `do_cancel()` publishes the timer that it has taken. -/
theorem Inv.publish (h : Inv stoppable s)
    (hs : TimeLoop.step stoppable s (.publish i t) = some s') : Inv stoppable s' := by
  obtain ⟨ht, hs⟩ := Option.ite_none_right_eq_some.1 hs
  obtain ⟨l, hl, rfl⟩ := Option.map_eq_some_iff.1 hs
  exact h.setPublish hl fun hc => by rcases ht with rfl | rfl <;> cases hc

/-- `start()` of a `schedule_sender` counts its work. -/
theorem Inv.schedule (h : Inv stoppable s)
    (hs : TimeLoop.step stoppable s (.schedule x here) = some s') : Inv stoppable s' := by
  obtain ⟨⟨hx, hhere⟩, rfl⟩ := enabled_iff.1 hs
  obtain ⟨l, hl, hcalls⟩ := h.enter hhere (.schedule x)
  rw [hl]
  have hq : (s.sched x).finish = .queued := by
    by_contra hq
    have := h.posted x (.inr hq)
    simp [hx] at this
  have hmono : s.Covered → State.Covered _ := fun hcov =>
    hcov.mono (t := { s with
      calls := l, workCount := s.workCount + 1,
      sched := Function.update s.sched x { s.sched x with start := .enqueue } }) le_rfl
      fun w hwk => by
        cases w with
        | schedule y =>
          simp only [State.Waking] at hwk ⊢
          grind
        | start j | publish j | add j | guard g | stop => exact .inl hwk
  exact { h with
    calls := hcalls
    count := by
      obtain ⟨a, b, c, ha, hb, hc, hsum⟩ := h.count
      exact ⟨a, b + 1, c, ha, hb.update (by simp [Sched.work, hx, hq]), hc, by
        dsimp only
        omega⟩
    sched := by
      have := h.sched
      grind
    posted := by
      have := h.posted
      grind
    schedFinishing := by
      have := h.schedFinishing
      grind
    schedReset := by
      have := h.schedReset
      grind
    queue := fun hw hne => hmono (h.queue hw hne)
    work := fun _ h0 => absurd h0 (Nat.succ_ne_zero _)
    timers := fun b hb j hj => (h.timers b hb j hj).imp_right hmono }

theorem Inv.enqueue (h : Inv stoppable s)
    (hs : TimeLoop.step stoppable s (.enqueue x) = some s') : Inv stoppable s' := by
  obtain ⟨hx, rfl⟩ := enabled_iff.1 hs
  have hposted := h.posted x
  have hcov : State.Covered { s with
      queue := s.queue ++ [.sched x],
      sched := Function.update s.sched x { s.sched x with start := .wakeup } } :=
    .inr ⟨.schedule x, by simp [State.Waking]⟩
  exact { h with
    count := by
      obtain ⟨a, b, c, ha, hb, hc, hsum⟩ := h.count
      exact ⟨a, b, c, ha, hb.update (by simp [Sched.work, hx]), hc, hsum⟩
    nodup := by
      have := h.nodup
      grind
    timer := by
      have := h.timer
      grind
    sched := by
      have := h.sched
      grind
    posted := by
      have := h.posted
      grind
    schedFinishing := by
      have := h.schedFinishing
      grind
    schedReset := by
      have := h.schedReset
      grind
    queue := fun _ _ => hcov
    work := fun _ _ => hcov
    timers := fun _ _ _ _ => .inr hcov }

theorem Inv.scheduled (h : Inv stoppable s)
    (hs : TimeLoop.step stoppable s (.scheduled x) = some s') : Inv stoppable s' := by
  obtain ⟨hx, rfl⟩ := enabled_iff.1 hs
  obtain ⟨h1, ht⟩ := h.wakeup (.schedule x)
  refine Inv.leave ?_
  rw [wakeupConsumer_eq] at h1 ⊢
  exact { h1 with
    count := by
      obtain ⟨a, b, c, ha, hb, hc, hsum⟩ := h1.count
      exact ⟨a, b, c, ha, hb.update (by simp [Sched.work, hx]), hc, hsum⟩
    sched := by
      have := h1.sched
      grind
    posted := by
      have := h1.posted
      grind
    schedFinishing := by
      have := h1.schedFinishing
      grind
    schedReset := by
      have := h1.schedReset
      grind
    queue := fun hc _ => .inl (ht hc.checked)
    work := fun hc _ => .inl (ht hc)
    timers := fun b hb _ _ => .inr (.inl (ht (ConsumerPc.checked_of_wait hb))) }

/-- A guard counts its work. -/
theorem Inv.workStarted (h : Inv stoppable s)
    (hs : TimeLoop.step stoppable s (.workStarted g) = some s') : Inv stoppable s' := by
  obtain ⟨hg, rfl⟩ := enabled_iff.1 hs
  have hmono : s.Covered → State.Covered _ := fun hcov =>
    hcov.mono (t := { s with
      workCount := s.workCount + 1, guard := Function.update s.guard g .held }) le_rfl
      fun w hwk => by
        cases w with
        | guard g' =>
          simp only [State.Waking] at hwk ⊢
          grind
        | start j | publish j | add j | schedule x | stop => exact .inl hwk
  exact { h with
    count := by
      obtain ⟨a, b, c, ha, hb, hc, hsum⟩ := h.count
      exact ⟨a, b, c + 1, ha, hb, hc.update (by simp [GuardPc.work, hg]), by
        dsimp only
        omega⟩
    queue := fun hw hne => hmono (h.queue hw hne)
    work := fun _ h0 => absurd h0 (Nat.succ_ne_zero _)
    timers := fun b hb j hj => (h.timers b hb j hj).imp_right hmono }

/-- A guard discounts its work, and is about to wake the consumer up when that was the last. -/
theorem Inv.workFinished (h : Inv stoppable s)
    (hs : TimeLoop.step stoppable s (.workFinished g here) = some s') : Inv stoppable s' := by
  obtain ⟨⟨hg, hhere⟩, rfl⟩ := enabled_iff.1 hs
  obtain ⟨l, hl, hcalls⟩ := h.enter hhere (.workFinished g)
  refine Inv.leave ?_
  rw [hl]
  obtain ⟨a, b, c, ha, hb, hc, hsum⟩ := h.count
  have hpos : 1 ≤ c := by
    have := hc.le g
    simpa [hg, GuardPc.work] using this
  have hzero : GuardPc.work (if s.workCount = 1 then .shutdown else .released) = 0 := by
    split <;> rfl
  have hmono : s.Covered → State.Covered _ := fun hcov =>
    hcov.mono (t := { s with
      calls := l, workCount := s.workCount - 1,
      guard := Function.update s.guard g (if s.workCount = 1 then .shutdown else .released) })
      le_rfl fun w hwk => by
        cases w with
        | guard g' =>
          simp only [State.Waking] at hwk ⊢
          grind
        | start j | publish j | add j | schedule x | stop => exact .inl hwk
  exact { h with
    calls := hcalls
    count := ⟨a, b, c - 1, ha, hb, hc.update (by
      rw [hzero, hg]
      simp only [GuardPc.work]
      omega), by
        dsimp only
        omega⟩
    queue := fun hw hne => hmono (h.queue hw hne)
    work := fun _ h0 => by
      have hone : s.workCount = 1 := by
        dsimp only at h0
        omega
      exact .inr ⟨.guard g, by simp [State.Waking, hone]⟩
    timers := fun b hb j hj => (h.timers b hb j hj).imp_right hmono }

theorem Inv.shutdown (h : Inv stoppable s)
    (hs : TimeLoop.step stoppable s (.shutdown g) = some s') : Inv stoppable s' := by
  obtain ⟨hg, rfl⟩ := enabled_iff.1 hs
  obtain ⟨h1, ht⟩ := h.wakeup (.workFinished g)
  refine Inv.leave ?_
  rw [wakeupConsumer_eq] at h1 ⊢
  exact { h1 with
    count := by
      obtain ⟨a, b, c, ha, hb, hc, hsum⟩ := h1.count
      exact ⟨a, b, c, ha, hb, hc.update (by simp [GuardPc.work, hg]), hsum⟩
    queue := fun hc _ => .inl (ht hc.checked)
    work := fun hc _ => .inl (ht hc)
    timers := fun b hb _ _ => .inr (.inl (ht (ConsumerPc.checked_of_wait hb))) }

theorem Inv.requestStop (h : Inv stoppable s)
    (hs : TimeLoop.step stoppable s (.requestStop here) = some s') : Inv stoppable s' := by
  obtain ⟨⟨hg, hhere⟩, rfl⟩ := enabled_iff.1 hs
  obtain ⟨l, hl, hcalls⟩ := h.enter hhere .requestStop
  rw [hl]
  have hcov : State.Covered { s with calls := l, stop := .shutdown } := .inr ⟨.stop, rfl⟩
  exact { h with
    calls := hcalls
    queue := fun _ _ => hcov
    work := fun _ _ => hcov
    timers := fun _ _ _ _ => .inr hcov }

theorem Inv.stopped (h : Inv stoppable s)
    (hs : TimeLoop.step stoppable s .stopped = some s') : Inv stoppable s' := by
  obtain ⟨hg, rfl⟩ := enabled_iff.1 hs
  obtain ⟨h1, ht⟩ := h.wakeup .requestStop
  refine Inv.leave ?_
  rw [wakeupConsumer_eq] at h1 ⊢
  exact { h1 with
    queue := fun hc _ => .inl (ht hc.checked)
    work := fun hc _ => .inl (ht hc)
    timers := fun b hb _ _ => .inr (.inl (ht (ConsumerPc.checked_of_wait hb))) }

end Coio.TimeLoop
