import Coio.TimeLoop.Wakeup

namespace Coio.TimeLoop
open Transition LoopBase
set_option autoImplicit true

/-- A thread is inside `immediately_post()` or `work_finished()` and has a step left that accesses
the context. -/
def State.Inside (s : State ι σ γ τ) : Waker ι σ γ → Prop
  | .start i => (s.loop.op i).start = .post ∨ (s.loop.op i).start = .wakeup
  | .publish i => (s.loop.op i).publish = .post ∨ (s.loop.op i).publish = .wakeup
  | .schedule x => (s.sched x).start = .enqueue ∨ (s.sched x).start = .wakeup
  | .guard g => s.guard g = .shutdown
  | .add _ | .stop => False

/-- The thread that has posted the operation is still inside `wakeup_consumer()`. -/
def State.posting (s : State ι σ γ τ) : Node ι σ → Bool
  | .timer i => (s.loop.op i).start = .wakeup || (s.loop.op i).publish = .wakeup
  | .sched x => (s.sched x).start = .wakeup

/-- The consumer is about to call `dequeue()`. -/
def ConsumerPc.dequeues : ConsumerPc ι σ τ → Bool
  | .consume _ | .poll => true
  | _ => false

/-- The operation at the front of the queue is taken only after its poster has woken the consumer
up, and only the consumer's thread brings the work count to zero. -/
def State.careful (s : State ι σ γ τ) : Act ι σ γ τ → Bool
  | .consumer _ _ => s.consumer.dequeues → (s.queue.head?.all fun n => !s.posting n)
  | .workFinished _ here => s.workCount = 1 → here
  | _ => true

/-- Nobody uses an operation or a guard that is done to reach the context. -/
structure Quiet (s : State ι σ γ τ) : Prop where
  op : ∀ i, (s.loop.op i).finish ≠ .queued →
    (s.loop.op i).start ≠ .wakeup ∧ (s.loop.op i).publish ≠ .wakeup
  sched : ∀ x, (s.sched x).finish ≠ .queued → (s.sched x).start ≠ .wakeup
  guard : ∀ g, s.guard g = .shutdown → Call.workFinished g ∈ s.calls

variable {s s' : State ι σ γ τ}

theorem Quiet.leave (h : Quiet s) : Quiet s.leave :=
  { h with
    guard := fun g hg => by
      have hg : s.guard g = .shutdown := hg
      simp [State.leave, State.left, h.guard g hg, hg] }

/-- Timers enter and leave the heap. -/
theorem Quiet.setLoop (h : Quiet s) (hop : l.op = s.loop.op) : Quiet { s with loop := l } :=
  { h with op := hop ▸ h.op }

theorem mem_enter {c : Call ι σ γ} (d : Call ι σ γ) (here : Bool) (h : c ∈ s.calls) :
    c ∈ (s.enter d here).calls := by
  cases here with
  | false => exact h
  | true => exact List.mem_cons_of_mem _ h

attribute [local grind =] Function.update_apply

variable [DecidableEq ι] [DecidableEq σ] [DecidableEq γ]

theorem mem_effect {c : Call ι σ γ} (i : ι) (here : Bool) (a : OperationState.Act)
    (h : c ∈ s.calls) : c ∈ (s.effect i here a).calls := by
  cases a with
  | workStarted | emplace | stop => exact mem_enter _ _ h
  | wakeup | publishWakeup =>
    simp only [State.effect]
    rw [wakeupConsumer_eq]
    exact h
  | _ => exact h

variable [LinearOrder τ] {stoppable : ι → Bool}

/-- A step of an operation outside `finish()` is no use of one that is done. -/
theorem Quiet.op_step (h : Quiet s) (hi : Inv stoppable s)
    (hs : TimeLoop.step stoppable s (.op i a here) = some s') : Quiet s' := by
  obtain ⟨⟨ha, hhere, -⟩, hs⟩ := Option.ite_none_right_eq_some.1 hs
  obtain ⟨s1, hs1, rfl⟩ := Option.map_eq_some_iff.1 hs
  obtain ⟨l, hl, rfl⟩ := Option.map_eq_some_iff.1 hs1
  have hcalls := fun g hg => mem_effect i here a (h.guard g hg)
  obtain ⟨c, q, n, t, he, -⟩ := hi.effect_spec hhere a
  rw [he] at hl hcalls ⊢
  obtain ⟨o, ho, rfl⟩ := opStep_of_step hl
  have hf := OpFrame.of_step ha ho
  have hreach := (hi.loop.op i).reachable
  have hpost : a = .post ∨ a = .publishPost → (s.loop.op i).finish = .queued := fun hap =>
    (posts_eq_zero (hreach.step (show (OperationState.system _).step _ a = some o from ho)) (by
      rw [hf.posts, if_pos hap]) hreach).2
  refine Quiet.leave ?_
  exact { h with
    op := fun j => by
      have := h.op j
      have := hf.finish
      have := hf.unposted
      have := hf.unpublished
      grind
    guard := hcalls }

omit [DecidableEq σ] [DecidableEq γ] in
theorem Quiet.setPublish (h : Quiet s) (hi : Inv stoppable s)
    (hl : LoopBase.step (fun _ => true) stoppable s.loop (.publish t i) = some l) :
    Quiet { s with loop := l } := by
  obtain ⟨⟨o, hop, ho⟩, -⟩ := hi.loop.publish_spec hl
  have hopj : ∀ j, l.op j = if j = i then o else s.loop.op j := fun j => by
    rw [hop, Function.update_apply]
  exact { h with
    op := fun j => by
      have := h.op j
      grind }

omit [DecidableEq γ] in
/-- The consumer takes an operation whose poster has left. -/
theorem Quiet.dequeue (h : Quiet s) (hd : s.dequeue stoppable infinite empty = some s')
    (hq : ∀ n, s.queue.head? = some n → s.posting n = false) : Quiet s' := by
  simp only [State.dequeue] at hd
  split at hd
  · obtain rfl := Option.some.inj hd
    exact { h with }
  · rename_i n rest hn
    have hn := hq n (by rw [hn]; rfl)
    split at hd
    · rename_i i
      obtain ⟨l, hl, rfl⟩ := Option.map_eq_some_iff.1 hd
      obtain ⟨o, ho, rfl⟩ := opStep_of_step hl
      obtain ⟨-, rfl⟩ := enabled_iff.1 ho
      simp only [State.posting, Bool.or_eq_false_iff, decide_eq_false_iff_not] at hn
      exact { h with
        op := fun j => by
          have := h.op j
          grind }
    · rename_i x
      obtain rfl := Option.some.inj hd
      simp only [State.posting, decide_eq_false_iff_not] at hn
      exact { h with
        sched := fun y => by
          have := h.sched y
          grind }

omit [DecidableEq γ] in
theorem Quiet.consumer (h : Quiet s) (hi : Inv stoppable s) (hc : s.careful (.consumer now fuel))
    (hs : s.consumerStep stoppable now fuel = some s') : Quiet s' := by
  simp only [State.careful, decide_eq_true_eq, Option.all_eq_true_iff_get] at hc
  simp only [State.consumerStep] at hs
  split at hs
  case h_1 b hp | h_2 b hp | h_8 hp | h_13 b1 b2 hp =>
    obtain rfl := Option.some.inj hs
    exact { h with }
  case h_3 b hp | h_12 hp =>
    refine h.dequeue hs fun n hn => ?_
    have := hc (by rw [hp]; rfl)
    simpa [hn] using this
  case h_4 i b hp =>
    obtain ⟨l, hl, rfl⟩ := Option.map_eq_some_iff.1 hs
    obtain ⟨o, ho, rfl⟩ := opStep_of_step hl
    obtain ⟨hfin, rfl⟩ := enabled_iff.1 ho
    exact { h with
      op := fun j => by
        have := h.op j
        grind }
  case h_5 x b hp =>
    obtain rfl := Option.some.inj hs
    have hfin := (hi.schedFinishing x).2 ⟨b, hp⟩
    exact { h with
      sched := fun y => by
        have := h.sched y
        grind }
  case h_6 i b hp =>
    obtain ⟨l, hl, rfl⟩ := Option.map_eq_some_iff.1 hs
    obtain ⟨o, ho, rfl⟩ := opStep_of_step hl
    obtain ⟨⟨hfin, -⟩, rfl⟩ := enabled_iff.1 ho
    exact { h with
      op := fun j => by
        have := h.op j
        grind }
  case h_7 b hp | h_11 i b hp =>
    obtain ⟨-, rfl⟩ := enabled_iff.1 hs
    exact { h with }
  case h_9 b hp =>
    obtain ⟨l, hl, rfl⟩ := Option.map_eq_some_iff.1 hs
    have hmove : Quiet { s with consumer := .publishPending b } := { h with }
    exact hmove.setLoop (hi.loop.takeReadyTimers hl).2.1
  case h_10 b hp =>
    split at hs
    · obtain rfl := Option.some.inj hs
      exact { h with }
    · obtain ⟨l, hl, rfl⟩ := Option.map_eq_some_iff.1 hs
      have hset := h.setPublish hi hl
      exact { hset with }
  case h_14 hp => cases hs
  case h_15 b hp => cases hs

theorem Quiet.step (h : Quiet s) (hi : Inv stoppable s) (hc : s.careful a)
    (hs : TimeLoop.step stoppable s a = some s') : Quiet s' := by
  cases a with
  | op i a here => exact h.op_step hi hs
  | consumer now fuel => exact h.consumer hi hc hs
  | add i =>
    obtain ⟨l, hl, rfl⟩ := Option.map_eq_some_iff.1 hs
    obtain ⟨-, rfl⟩ := enabled_iff.1 hl
    exact { h with }
  | remove i t fuel =>
    obtain ⟨l, hl, rfl⟩ := Option.map_eq_some_iff.1 hs
    exact h.setLoop (hi.loop.remove_spec hl).1
  | publish i t =>
    obtain ⟨-, hs⟩ := Option.ite_none_right_eq_some.1 hs
    obtain ⟨l, hl, rfl⟩ := Option.map_eq_some_iff.1 hs
    exact h.setPublish hi hl
  | added i =>
    obtain ⟨-, rfl⟩ := enabled_iff.1 hs
    rw [wakeupConsumer_eq]
    exact { h with }
  | schedule x here =>
    obtain ⟨⟨hx, hhere⟩, rfl⟩ := enabled_iff.1 hs
    have hcalls := fun g hg => mem_enter (.schedule x) here (h.guard g hg)
    obtain ⟨l, hl, -⟩ := hi.enter hhere (.schedule x)
    rw [hl] at hcalls ⊢
    exact { h with
      sched := fun y => by
        have := h.sched y
        grind
      guard := hcalls }
  | enqueue x =>
    obtain ⟨hx, rfl⟩ := enabled_iff.1 hs
    have hq := hi.posted x
    exact { h with
      sched := fun y => by
        have := h.sched y
        grind }
  | scheduled x =>
    obtain ⟨hx, rfl⟩ := enabled_iff.1 hs
    refine Quiet.leave ?_
    rw [wakeupConsumer_eq]
    exact { h with
      sched := fun y => by
        have := h.sched y
        grind }
  | workStarted g =>
    obtain ⟨hg, rfl⟩ := enabled_iff.1 hs
    exact { h with
      guard := fun g' => by
        have := h.guard g'
        grind }
  | workFinished g here =>
    obtain ⟨⟨hg, hhere⟩, rfl⟩ := enabled_iff.1 hs
    simp only [State.careful, decide_eq_true_eq] at hc
    refine Quiet.leave ?_
    have hcalls : ∀ g', Function.update s.guard g
        (if s.workCount = 1 then .shutdown else .released) g' = .shutdown →
        Call.workFinished g' ∈ (s.enter (.workFinished g) here).calls := fun g' hg' => by
      by_cases hgg : g' = g
      · subst hgg
        have hone : s.workCount = 1 := by
          by_contra hne
          simp [hne] at hg'
        rw [hc hone]
        exact List.mem_cons_self
      · exact mem_enter _ _ (h.guard g' (by simpa [Function.update_of_ne hgg] using hg'))
    obtain ⟨l, hl, -⟩ := hi.enter hhere (.workFinished g)
    rw [hl] at hcalls ⊢
    exact { h with guard := hcalls }
  | shutdown g =>
    obtain ⟨hg, rfl⟩ := enabled_iff.1 hs
    refine Quiet.leave ?_
    rw [wakeupConsumer_eq]
    exact { h with
      guard := fun g' => by
        have := h.guard g'
        grind }
  | requestStop here =>
    obtain ⟨⟨hx, hhere⟩, rfl⟩ := enabled_iff.1 hs
    have hcalls := fun g hg => mem_enter .requestStop here (h.guard g hg)
    obtain ⟨l, hl, -⟩ := hi.enter hhere .requestStop
    rw [hl] at hcalls ⊢
    exact { h with guard := hcalls }
  | stopped =>
    obtain ⟨hg, rfl⟩ := enabled_iff.1 hs
    refine Quiet.leave ?_
    rw [wakeupConsumer_eq]
    exact { h with }
  | run infinite | acquire | timeout =>
    simp only [TimeLoop.step] at hs
    (repeat' split at hs) <;> cases hs
    all_goals exact { h with }

/-- The runs in which every step is careful. -/
def carefulSystem (stoppable : ι → Bool) (deadline : ι → τ) :
    System (State ι σ γ τ) (Act ι σ γ τ) where
  init := { loop := { timers := { deadline } } }
  step s a := if s.careful a then TimeLoop.step stoppable s a else none

theorem Quiet.reachable {deadline : ι → τ}
    (h : (carefulSystem (σ := σ) (γ := γ) stoppable deadline).Reachable s) :
    Inv stoppable s ∧ Quiet s :=
  System.Invariant.reachable (I := fun s => Inv stoppable s ∧ Quiet s)
    ⟨⟨.init deadline, by constructor <;> simp [carefulSystem]⟩, fun _ _ _ _ ⟨hi, hq⟩ hs => by
      obtain ⟨hc, hs⟩ := Option.ite_none_right_eq_some.1 hs
      exact ⟨hi.step hs, hq.step hi hc hs⟩⟩ h

/-- When `run()` returns after careful steps, no thread is left inside `immediately_post()` or
`work_finished()` with a step that accesses the context. -/
theorem untouched_after_run {deadline : ι → τ}
    (h : (carefulSystem (σ := σ) (γ := γ) stoppable deadline).Reachable s)
    (hs : TimeLoop.step stoppable s a = some s') (hp : s.consumer ≠ .returned false true)
    (hp' : s'.consumer = .returned false true) (w : Waker ι σ γ) : ¬ s'.Inside w := by
  obtain ⟨hi, hq⟩ := Quiet.reachable h
  obtain ⟨h0, hplain, rfl⟩ := returns_false hs hp hp'
  have hcalm := hi.calm hplain
  have hop := fun i => OperationState.invariants (hi.loop.op i).reachable
  have hposted := fun i (hd : (s.loop.op i).finish = .doFinish) =>
    (hop i).1.posted ((hop i).2.2.posted (by rw [hd]; nofun))
  cases w with
  | start i =>
    intro hin
    have hin : (s.loop.op i).start = .post ∨ (s.loop.op i).start = .wakeup := hin
    have hd := hi.finished (i := i) h0 hcalm (by rcases hin with hin | hin <;> simp [hin])
    rcases hin with hin | hin
    · have := (hposted i hd).2.1
      simp [hin, OperationState.StartPc.Touches] at this
    · exact (hq.op i (by simp [hd])).1 hin
  | publish i =>
    intro hin
    have hin : (s.loop.op i).publish = .post ∨ (s.loop.op i).publish = .wakeup := hin
    have harmed := (hop i).1.posting hin
    have hd := hi.finished (i := i) h0 hcalm (by simp [harmed])
    rcases hin with hin | hin
    · have := (hposted i hd).2.2
      simp [hin, OperationState.PublishPc.Touches] at this
    · exact (hq.op i (by simp [hd])).2 hin
  | schedule x =>
    intro hin
    have hin : (s.sched x).start = .enqueue ∨ (s.sched x).start = .wakeup := hin
    have hd := hi.schedFinished (x := x) h0 hcalm (by rcases hin with hin | hin <;> simp [hin])
    have hp := hi.posted x (.inr (by simp [hd]))
    have hnot := hq.sched x (by simp [hd])
    rcases hin with hin | hin
    · simp [hin] at hp
    · exact hnot hin
  | guard g =>
    intro hg
    have := hq.guard g hg
    simp [hcalm.calls] at this
  | add i | stop => exact id

/-- The consumer runs an operation to its end while the thread that has posted it has yet to wake
the consumer up. -/
theorem untouched_after_run_fails : ∃ s s', unstoppable.exec unstoppable.init emptyRun = some s ∧
    unstoppable.step s (.consumer 0 1) = some s' ∧ s.consumer ≠ .returned false true ∧
    s'.consumer = .returned false true ∧ s'.Inside (.schedule 3) :=
  ⟨_, _, rfl, rfl, nofun, rfl, .inr rfl⟩

/-- The thread that has posted the operation leaves before the consumer takes it. -/
def carefulRun : List (Act Nat Nat Nat Nat) :=
  [.schedule 3 false, .enqueue 3, .scheduled 3, .run true, .consumer 0 1, .consumer 0 1,
    .consumer 0 1, .consumer 0 1, .consumer 0 1, .consumer 0 1, .run true]

/-- No timer has a stop token, and every step is careful. -/
def carefulUnstoppable : System (State Nat Nat Nat Nat) (Act Nat Nat Nat Nat) :=
  carefulSystem (fun _ => false) id

theorem untouched_after_run_careful : ∃ s s',
    carefulUnstoppable.exec carefulUnstoppable.init carefulRun = some s ∧
    unstoppable.step s (.consumer 0 1) = some s' ∧ ¬ s'.Inside (.schedule 3) := by
  refine ⟨_, _, rfl, rfl, ?_⟩
  exact untouched_after_run (carefulUnstoppable.reachable_exec carefulRun rfl)
    (a := .consumer 0 1) rfl nofun rfl _

end Coio.TimeLoop
