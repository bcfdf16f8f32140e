import Coio.TimeLoop.Steps

namespace Coio.TimeLoop
open Transition LoopBase Tally
set_option autoImplicit true

/-- The consumer is neither in `finish()` nor in `publish()`. -/
def ConsumerPc.Plain : ConsumerPc ι σ τ → Prop
  | .workFinished _ _ | .reset _ _ | .user _ | .publishing _ _ => False
  | _ => True

/-- A step at which the consumer has yet to check and does not finish a scheduled operation. -/
def ConsumerPc.Fresh : ConsumerPc ι σ τ → Prop
  | .workFinished (.sched _) _ | .consume _ | .earliest | .wait _ => False
  | _ => True

theorem ConsumerPc.Fresh.not_checked {p : ConsumerPc ι σ τ} (h : p.Fresh) : ¬ p.Checked := by
  cases p with
  | consume | earliest | wait => cases h
  | _ => exact id

theorem ConsumerPc.Fresh.ne_workFinished {p : ConsumerPc ι σ τ} (h : p.Fresh) :
    p ≠ .workFinished (.sched x) b := by
  rintro rfl
  exact h

attribute [local grind =] Function.update_apply

variable [DecidableEq ι] [LinearOrder τ] {stoppable : ι → Bool} {s s' : State ι σ γ τ}

/-- What is not going on while the consumer is outside `finish()` and `publish()`. -/
structure Calm (s : State ι σ γ τ) : Prop where
  calls : s.calls = []
  backend : ∀ i, Publishing (s.loop.op i).publish → (s.loop.op i).caller ≠ .backend
  finishing : ∀ i, (s.loop.op i).finish ≠ .workFinished
  resetting : ∀ i, (s.loop.op i).finish ≠ .reset
  schedFinishing : ∀ x, (s.sched x).finish ≠ .workFinished

theorem Inv.calm (h : Inv stoppable s) (hs : s.consumer.Plain) : Calm s := by
  have hplain : ∀ q : ConsumerPc ι σ τ, s.consumer = q → q.Plain := fun q hq => hq ▸ hs
  constructor
  · by_contra hc
    have := h.calls hc
    cases hp : s.consumer <;> simp_all [ConsumerPc.inUser, ConsumerPc.Plain]
  · intro i hi hc
    obtain ⟨b, hb⟩ := h.backend i hi hc
    exact hplain _ hb
  · intro i hi
    obtain ⟨b, hb⟩ := h.finishing i hi
    exact hplain _ hb
  · intro i hi
    obtain ⟨b, hb⟩ := h.resetting i hi
    exact hplain _ hb
  · intro x hx
    obtain ⟨b, hb⟩ := (h.schedFinishing x).1 hx
    exact hplain _ hb

theorem Inv.calm_of_user (h : Inv stoppable s) (hs : s.consumer = .user b) (hc : s.calls = []) :
    Calm s where
  calls := hc
  backend i hi hb := by
    obtain ⟨b', hp⟩ := h.backend i hi hb
    rw [hs] at hp
    cases hp
  finishing i hi := by
    obtain ⟨b', hp⟩ := h.finishing i hi
    rw [hs] at hp
    cases hp
  resetting i hi := by
    obtain ⟨b', hp⟩ := h.resetting i hi
    rw [hs] at hp
    cases hp
  schedFinishing x hx := by
    obtain ⟨b', hp⟩ := (h.schedFinishing x).1 hx
    rw [hs] at hp
    cases hp

theorem Inv.calm_of_published (h : Inv stoppable s) (hs : s.consumer = .publishing i b)
    (hp : (s.loop.op i).publish = .returned) : Calm s where
  calls := by
    by_contra hc
    have := h.calls hc
    simp [hs, ConsumerPc.inUser] at this
  backend j hj hb := by
    obtain ⟨b', hp'⟩ := h.backend j hj hb
    rw [hs] at hp'
    cases hp'
    rw [hp] at hj
    exact hj
  finishing j hj := by
    obtain ⟨b', hp'⟩ := h.finishing j hj
    rw [hs] at hp'
    cases hp'
  resetting j hj := by
    obtain ⟨b', hp'⟩ := h.resetting j hj
    rw [hs] at hp'
    cases hp'
  schedFinishing x hx := by
    obtain ⟨b', hp'⟩ := (h.schedFinishing x).1 hx
    rw [hs] at hp'
    cases hp'

/-- A move of the consumer from outside `finish()` and `publish()`. -/
theorem Inv.move (h : Inv stoppable s) (hs : Calm s)
    (hp : ∀ x b, p ≠ .workFinished (.sched x) b)
    (hq : p.Waiting → s.queue ≠ [] → s.Covered) (hw : p.Checked → s.workCount = 0 → s.Covered)
    (ht : ∀ b, p = .wait b → ∀ i, s.loop.place i = .inside →
      (∃ d, b = some d ∧ d ≤ s.loop.timers.deadline i) ∨ s.Covered) :
    Inv stoppable { s with consumer := p } :=
  { h with
    calls := fun hc => absurd hs.calls hc
    backend := fun i hi hc => absurd hc (hs.backend i hi)
    finishing := fun i hi => absurd hi (hs.finishing i)
    resetting := fun i hi => absurd hi (hs.resetting i)
    schedFinishing := fun x => ⟨fun hx => absurd hx (hs.schedFinishing x),
      fun ⟨b, hb⟩ => absurd hb (hp x b)⟩
    queue := hq
    work := hw
    timers := ht }

/-- A move to a step at which the consumer has yet to check. -/
theorem Inv.moveFree (h : Inv stoppable s) (hs : Calm s) (hp : p.Fresh) :
    Inv stoppable { s with consumer := p } :=
  h.move hs (fun _ _ => hp.ne_workFinished) (fun hw => absurd hw.checked hp.not_checked)
    (fun hw => absurd hw hp.not_checked)
    fun _ hb => absurd (ConsumerPc.checked_of_wait hb) hp.not_checked

/-- `consume()` calls `finish()` of the first operation of the queue. -/
theorem Inv.dequeue [DecidableEq σ] (h : Inv stoppable s) (hs : s.consumer.Plain)
    (hd : s.dequeue stoppable infinite empty = some s')
    (hempty : s.queue = [] → Inv stoppable { s with consumer := empty }) : Inv stoppable s' := by
  have hcalm := h.calm hs
  cases hq : s.queue with
  | nil =>
    simp only [State.dequeue, hq] at hd
    obtain rfl := Option.some.inj hd
    simpa only [hq] using hempty hq
  | cons n rest =>
    have hn := h.nodup
    rw [hq] at hn
    obtain ⟨hnotin, hrest⟩ := List.nodup_cons.1 hn
    have htimer := h.timer
    have hsched := h.sched
    have hposted := h.posted
    rw [hq] at htimer hsched
    simp only [hq] at hposted
    cases n with
    | timer i =>
      simp only [State.dequeue, hq] at hd
      obtain ⟨l, hl, rfl⟩ := Option.map_eq_some_iff.1 hd
      have hloop := h.loop.step hl
      obtain ⟨o, ho, rfl⟩ := opStep_of_step hl
      obtain ⟨⟨hfin, -⟩, rfl⟩ := enabled_iff.1 ho
      have hfin : (s.loop.op i).finish = .queued := hfin
      exact { h with
        loop := hloop
        calls := fun hc => absurd hcalm.calls hc
        backend := by
          have := hcalm.backend
          grind
        count := by
          obtain ⟨a, b, c, ha, hb, hc, hsum⟩ := h.count
          exact ⟨a, b, c, ha.update (by simp [opWork, hfin]), hb, hc, hsum⟩
        nodup := hrest
        timer := by grind
        sched := by grind
        posted := by grind
        finishing := by
          have := hcalm.finishing
          grind
        resetting := by
          have := hcalm.resetting
          grind
        schedFinishing := fun x => ⟨fun hx => absurd hx (hcalm.schedFinishing x), by rintro ⟨_, ⟨⟩⟩⟩
        queue := fun hw => hw.elim
        work := fun hw => hw.elim
        timers := by rintro _ ⟨⟩ }
    | sched x =>
      simp only [State.dequeue, hq] at hd
      obtain rfl := Option.some.inj hd
      have hfin := hsched x List.mem_cons_self
      exact { h with
        calls := fun hc => absurd hcalm.calls hc
        backend := fun i hi hc => absurd hc (hcalm.backend i hi)
        count := by
          obtain ⟨a, b, c, ha, hb, hc, hsum⟩ := h.count
          exact ⟨a, b, c, ha, hb.update (by simp [Sched.work, hfin]), hc, hsum⟩
        nodup := hrest
        timer := by grind
        sched := by grind
        posted := by grind
        finishing := fun i hi => absurd hi (hcalm.finishing i)
        resetting := fun i hi => absurd hi (hcalm.resetting i)
        schedFinishing := fun y => by
          have hy := hcalm.schedFinishing y
          by_cases hyx : y = x
          · subst hyx
            simp
          · simp [Function.update_of_ne hyx, hy, Ne.symm hyx]
        schedReset := by
          have := h.schedReset
          grind
        queue := fun hw => hw.elim
        work := fun hw => hw.elim
        timers := by rintro _ ⟨⟩ }

/-- `work_finished()` of the operation that the consumer finishes. -/
theorem Inv.finishTimer (h : Inv stoppable s) (hs : s.consumer = .workFinished (.timer i) b)
    (hl : LoopBase.step (fun _ => true) stoppable s.loop (.op i .workFinished) = some l) :
    Inv stoppable
      { s with workCount := s.workCount - 1, consumer := .reset i b, loop := l } := by
  have hloop := h.loop.step hl
  obtain ⟨o, ho, rfl⟩ := opStep_of_step hl
  obtain ⟨hfin, rfl⟩ := enabled_iff.1 ho
  have hreach := (h.loop.op i).reachable
  have hstart : (s.loop.op i).start ≠ .workStarted := fun hst => by
    have hi := OperationState.invariants hreach
    have := (hi.1.posted (hi.2.2.posted (by rw [hfin]; rintro ⟨⟩))).2.1
    simp [hst, OperationState.StartPc.Touches] at this
  have hcalls : s.calls = [] := by
    by_contra hc
    have := h.calls hc
    simp [hs, ConsumerPc.inUser] at this
  have hwork : opWork (s.loop.op i) = 1 := by simp [opWork, hstart, hfin]
  exact { h with
    loop := hloop
    calls := fun hc => absurd hcalls hc
    backend := by
      have := h.backend
      grind
    count := by
      obtain ⟨x, y, z, hx, hy, hz, hsum⟩ := h.count
      have hle := hx.le i
      rw [hwork] at hle
      refine ⟨x - 1, y, z, hx.update ?_, hy, hz, ?_⟩
      · rw [hwork]
        simp only [opWork]
        simp
        omega
      · dsimp only
        omega
    timer := by
      have := h.timer
      grind
    finishing := by
      have := h.finishing
      grind
    resetting := fun j hj => by
      by_cases hji : j = i
      · exact ⟨b, by rw [hji]⟩
      · obtain ⟨b', hb'⟩ := h.resetting j (by simpa [Function.update_of_ne hji] using hj)
        rw [hs] at hb'
        cases hb'
    schedFinishing := fun x => by
      have := h.schedFinishing x
      simp [this, hs]
    queue := fun hw => hw.elim
    work := fun hw => hw.elim
    timers := by rintro _ ⟨⟩ }

theorem Inv.finishSched [DecidableEq σ] (h : Inv stoppable s)
    (hs : s.consumer = .workFinished (.sched x) b) :
    Inv stoppable { s with
      workCount := s.workCount - 1
      sched := Function.update s.sched x { s.sched x with finish := .doFinish }
      consumer := .user b } := by
  have hfin := (h.schedFinishing x).2 ⟨b, hs⟩
  have hstart := h.posted x (.inr (by rw [hfin]; rintro ⟨⟩))
  have hwork : (s.sched x).work = 1 := by
    rcases hstart with hst | hst <;> simp [Sched.work, hst, hfin]
  exact { h with
    calls := fun _ => rfl
    backend := by
      have := h.backend
      grind
    count := by
      obtain ⟨x', y, z, hx, hy, hz, hsum⟩ := h.count
      have hle := hy.le x
      rw [hwork] at hle
      refine ⟨x', y - 1, z, hx, hy.update ?_, hz, ?_⟩
      · rw [hwork]
        simp [Sched.work]
        omega
      · dsimp only
        omega
    sched := by
      have := h.sched
      grind
    posted := by
      have := h.posted
      grind
    finishing := by
      have := h.finishing
      grind
    resetting := by
      have := h.resetting
      grind
    schedFinishing := fun y => by
      by_cases hyx : y = x
      · subst hyx
        simp
      · simp [Function.update_of_ne hyx, h.schedFinishing y, hs, Ne.symm hyx]
    schedReset := by
      have := h.schedReset
      grind
    queue := fun hw => hw.elim
    work := fun hw => hw.elim
    timers := by rintro _ ⟨⟩ }

/-- The stop callback is reset, and `do_finish()` runs user code. -/
theorem Inv.resetTimer (h : Inv stoppable s) (hs : s.consumer = .reset i b)
    (hl : LoopBase.step (fun _ => true) stoppable s.loop (.op i .reset) = some l) :
    Inv stoppable { s with consumer := .user b, loop := l } := by
  have hloop := h.loop.step hl
  obtain ⟨o, ho, rfl⟩ := opStep_of_step hl
  obtain ⟨⟨hfin, -⟩, rfl⟩ := enabled_iff.1 ho
  exact { h with
    loop := hloop
    calls := fun _ => rfl
    backend := by
      have := h.backend
      grind
    count := by
      obtain ⟨x, y, z, hx, hy, hz, hsum⟩ := h.count
      exact ⟨x, y, z, hx.update (by simp [opWork, hfin]), hy, hz, hsum⟩
    timer := by
      have := h.timer
      grind
    finishing := by
      have := h.finishing
      grind
    resetting := by
      have := h.resetting
      grind
    schedFinishing := fun x => by
      have := h.schedFinishing x
      grind
    queue := fun hw => hw.elim
    work := fun hw => hw.elim
    timers := nofun }

/-- A step of the consumer. -/
theorem Inv.consumer [DecidableEq σ] (h : Inv stoppable s)
    (hs : s.consumerStep stoppable now fuel = some s') : Inv stoppable s' := by
  simp only [State.consumerStep] at hs
  split at hs
  case h_1 b hp =>
    obtain rfl := Option.some.inj hs
    refine h.moveFree (h.calm (by rw [hp]; trivial)) ?_
    split <;> trivial
  case h_2 b hp =>
    obtain rfl := Option.some.inj hs
    have hcalm := h.calm (by rw [hp]; trivial)
    by_cases h0 : s.workCount = 0
    · rw [if_pos h0]
      exact h.moveFree hcalm trivial
    · rw [if_neg h0]
      exact h.move hcalm (by rintro _ _ ⟨⟩) (by rintro ⟨⟩) (fun _ hn => absurd hn h0)
        (by rintro _ ⟨⟩)
  case h_3 b hp =>
    have hplain : s.consumer.Plain := by rw [hp]; trivial
    have hwork := h.work (by rw [hp]; trivial)
    refine h.dequeue hplain hs fun hq => ?_
    cases b with
    | true =>
      exact h.move (p := .earliest) (h.calm hplain) (by rintro _ _ ⟨⟩) (fun _ hn => absurd hq hn)
        (fun _ => hwork) (by rintro _ ⟨⟩)
    | false => exact h.moveFree (p := .takeReadyTimers false) (h.calm hplain) trivial
  case h_4 i b hp =>
    obtain ⟨l, hl, rfl⟩ := Option.map_eq_some_iff.1 hs
    exact h.finishTimer hp hl
  case h_5 x b hp =>
    obtain rfl := Option.some.inj hs
    exact h.finishSched hp
  case h_6 i b hp =>
    obtain ⟨l, hl, rfl⟩ := Option.map_eq_some_iff.1 hs
    exact h.resetTimer hp hl
  case h_7 b hp =>
    obtain ⟨hc, rfl⟩ := enabled_iff.1 hs
    exact h.moveFree (h.calm_of_user hp hc) trivial
  case h_8 hp =>
    obtain rfl := Option.some.inj hs
    have hqueue := h.queue (by rw [hp]; trivial)
    have hwork := h.work (by rw [hp]; trivial)
    refine h.move (h.calm (by rw [hp]; trivial)) (by rintro _ _ ⟨⟩) (fun _ => hqueue)
      (fun _ => hwork) fun b hb i hi => ?_
    obtain ⟨S, hS, hmem⟩ := h.loop.heap
    obtain rfl := ConsumerPc.wait.inj hb
    exact .inl (hS.earliest_le ((hmem i).2 ⟨rfl, hi⟩))
  case h_9 b hp =>
    obtain ⟨l, hl, rfl⟩ := Option.map_eq_some_iff.1 hs
    obtain ⟨hloop, hop, hd, hplace⟩ := h.loop.takeReadyTimers hl
    have hmove := h.moveFree (p := .publishPending b) (h.calm (by rw [hp]; trivial)) trivial
    refine hmove.setLoop hloop hop hd fun j => ?_
    rw [hplace]
    split
    · exact .inr ⟨_, rfl⟩
    · exact .inl rfl
  case h_10 b hp =>
    have hcalm := h.calm (by rw [hp]; trivial)
    split at hs
    · obtain rfl := Option.some.inj hs
      cases b with
      | true => exact h.moveFree (p := .check true) hcalm trivial
      | false => exact h.moveFree (p := .poll) hcalm trivial
    · obtain ⟨l, hl, rfl⟩ := Option.map_eq_some_iff.1 hs
      rename_i i _ _
      have hmove := h.moveFree (p := .publishing i b) hcalm trivial
      exact hmove.setPublish hl fun _ => ⟨b, rfl⟩
  case h_11 i b hp =>
    obtain ⟨hpub, rfl⟩ := enabled_iff.1 hs
    exact h.moveFree (h.calm_of_published hp hpub) trivial
  case h_12 hp =>
    have hplain : s.consumer.Plain := by rw [hp]; trivial
    exact h.dequeue hplain hs fun _ => h.moveFree (h.calm hplain) trivial
  case h_13 b1 b2 hp =>
    obtain rfl := Option.some.inj hs
    exact h.moveFree (h.calm (by rw [hp]; trivial)) trivial
  case h_14 hp => cases hs
  case h_15 b hp => cases hs

/-- The consumer leaves the semaphore with a token or at its deadline. -/
theorem Inv.unblock (h : Inv stoppable s) (hs : s.consumer = .wait b) (n : Nat) :
    Inv stoppable { s with tokens := n, consumer := .takeReadyTimers true } := by
  have h1 := h.moveFree (p := .takeReadyTimers true) (h.calm (by rw [hs]; trivial)) trivial
  exact { h1 with
    queue := fun hw => hw.elim
    work := fun hw => hw.elim
    timers := nofun }

/-- When the count is zero, an operation that has executed `work_started()` is finished. -/
theorem Inv.finished (h : Inv stoppable s) (h0 : s.workCount = 0) (hc : Calm s)
    (hi : (s.loop.op i).start ≠ .workStarted) : (s.loop.op i).finish = .doFinish := by
  obtain ⟨a, b, c, ha, -, -, hsum⟩ := h.count
  have hzero := ha.le i
  have := hc.finishing i
  have := hc.resetting i
  simp only [opWork] at hzero
  cases hf : (s.loop.op i).finish <;> grind

theorem Inv.schedFinished (h : Inv stoppable s) (h0 : s.workCount = 0) (hc : Calm s)
    (hx : (s.sched x).start ≠ .workStarted) : (s.sched x).finish = .doFinish := by
  obtain ⟨a, b, c, -, hb, -, hsum⟩ := h.count
  have hzero := hb.le x
  have := hc.schedFinishing x
  have := h.schedReset x
  simp only [Sched.work] at hzero
  cases hf : (s.sched x).finish <;> grind

variable [DecidableEq σ] [DecidableEq γ]

theorem Inv.step (h : Inv stoppable s) (hs : TimeLoop.step stoppable s a = some s') :
    Inv stoppable s' := by
  cases a with
  | op i a here => exact h.op hs
  | add i => exact h.add hs
  | added i => exact h.added_step hs
  | remove i t fuel => exact h.remove hs
  | publish i t => exact h.publish hs
  | schedule x here => exact h.schedule hs
  | enqueue x => exact h.enqueue hs
  | scheduled x => exact h.scheduled hs
  | workStarted g => exact h.workStarted hs
  | workFinished g here => exact h.workFinished hs
  | shutdown g => exact h.shutdown hs
  | requestStop here => exact h.requestStop hs
  | stopped => exact h.stopped hs
  | run infinite =>
    simp only [TimeLoop.step] at hs
    split at hs
    · rename_i hp
      obtain rfl := Option.some.inj hs
      exact h.moveFree (h.calm (by rw [hp]; trivial)) trivial
    · cases hs
  | acquire =>
    simp only [TimeLoop.step] at hs
    split at hs
    · rename_i hp
      obtain ⟨-, rfl⟩ := enabled_iff.1 hs
      exact h.unblock hp _
    · cases hs
  | timeout =>
    simp only [TimeLoop.step] at hs
    split at hs
    · rename_i hp
      obtain rfl := Option.some.inj hs
      exact h.unblock hp _
    · cases hs
  | consumer now fuel => exact h.consumer hs

theorem Inv.reachable {deadline : ι → τ}
    (h : (system (σ := σ) (γ := γ) stoppable deadline).Reachable s) : Inv stoppable s :=
  System.Invariant.reachable ⟨.init deadline, fun _ _ _ _ hi hs => hi.step hs⟩ h

omit [LinearOrder τ] in
theorem effect_consumer (s : State ι σ γ τ) (i : ι) (here : Bool) (a : OperationState.Act) :
    (s.effect i here a).consumer = s.consumer := by
  cases a <;> simp [State.effect]

omit [DecidableEq γ] in
theorem dequeue_consumer (hd : s.dequeue stoppable infinite empty = some s') :
    s'.consumer = empty ∨ ∃ n, s'.consumer = .workFinished n infinite := by
  simp only [State.dequeue] at hd
  split at hd
  · obtain rfl := Option.some.inj hd
    exact .inl rfl
  · rename_i n rest _
    right
    split at hd
    · obtain ⟨l, -, rfl⟩ := Option.map_eq_some_iff.1 hd
      exact ⟨_, rfl⟩
    · obtain rfl := Option.some.inj hd
      exact ⟨_, rfl⟩

omit [DecidableEq γ] in
/-- `do_one(true)` returns false at a test of the work count. -/
theorem consumer_returns_false (hs : s.consumerStep stoppable now fuel = some s')
    (hp' : s'.consumer = .returned false true) :
    s.workCount = 0 ∧ s.consumer.Plain ∧ s' = { s with consumer := .returned false true } := by
  simp only [State.consumerStep] at hs
  split at hs
  case h_1 b hp | h_2 b hp =>
    obtain rfl := Option.some.inj hs
    have h0 : s.workCount = 0 := by
      by_contra h0
      simp [h0] at hp'
    exact ⟨h0, by rw [hp]; trivial, by rw [← hp']⟩
  case h_3 b hp =>
    rcases dequeue_consumer hs with he | ⟨n, he⟩
    · rw [he] at hp'
      split at hp' <;> cases hp'
    · rw [he] at hp'
      cases hp'
  case h_4 i b hp | h_6 i b hp | h_9 b hp =>
    obtain ⟨l, -, rfl⟩ := Option.map_eq_some_iff.1 hs
    cases hp'
  case h_5 x b hp | h_8 hp =>
    obtain rfl := Option.some.inj hs
    cases hp'
  case h_7 b hp | h_11 i b hp =>
    obtain ⟨-, rfl⟩ := enabled_iff.1 hs
    cases hp'
  case h_10 b hp =>
    split at hs
    · obtain rfl := Option.some.inj hs
      cases b <;> cases hp'
    · obtain ⟨l, -, rfl⟩ := Option.map_eq_some_iff.1 hs
      cases hp'
  case h_12 hp =>
    rcases dequeue_consumer hs with he | ⟨n, he⟩ <;> rw [he] at hp' <;> cases hp'
  case h_13 b1 b2 hp =>
    obtain rfl := Option.some.inj hs
    cases hp'
  case h_14 hp => cases hs
  case h_15 b hp => cases hs

theorem returns_false (hs : TimeLoop.step stoppable s a = some s')
    (hp : s.consumer ≠ .returned false true) (hp' : s'.consumer = .returned false true) :
    s.workCount = 0 ∧ s.consumer.Plain ∧ s' = { s with consumer := .returned false true } := by
  cases a with
  | consumer now fuel => exact consumer_returns_false hs hp'
  | op i a here =>
    obtain ⟨-, hs⟩ := Option.ite_none_right_eq_some.1 hs
    obtain ⟨s1, hs1, rfl⟩ := Option.map_eq_some_iff.1 hs
    obtain ⟨l, -, rfl⟩ := Option.map_eq_some_iff.1 hs1
    simp only [State.leave, effect_consumer] at hp'
    exact absurd hp' hp
  | add i | remove i t fuel =>
    obtain ⟨l, -, rfl⟩ := Option.map_eq_some_iff.1 hs
    exact absurd hp' hp
  | publish i t =>
    obtain ⟨-, hs⟩ := Option.ite_none_right_eq_some.1 hs
    obtain ⟨l, -, rfl⟩ := Option.map_eq_some_iff.1 hs
    exact absurd hp' hp
  | run infinite | acquire | timeout =>
    simp only [TimeLoop.step] at hs
    (repeat' split at hs) <;> cases hs
    all_goals cases hp'
  | _ =>
    obtain ⟨-, rfl⟩ := enabled_iff.1 hs
    simp only [State.leave, enter_consumer, wakeupConsumer_consumer] at hp'
    exact absurd hp' hp

/-- No wakeup is lost: when the consumer is blocked and no thread is about to wake it up, there is
nothing to do before its deadline. `do_one(true)` returns false only when the work count is zero,
and then all that was started is finished. -/
theorem no_lost_wakeup {deadline : ι → τ}
    (h : (system (σ := σ) (γ := γ) stoppable deadline).Reachable s) :
    (∀ b, s.consumer = .wait b → s.tokens = 0 → (∀ w, ¬ s.Waking w) →
      s.queue = [] ∧ 0 < s.workCount ∧ ∃ S, s.loop.timers.Represents S ∧
        ∀ i ∈ S, ∃ d, b = some d ∧ d ≤ s.loop.timers.deadline i) ∧
    (∀ a s', TimeLoop.step stoppable s a = some s' → s.consumer ≠ .returned false true →
      s'.consumer = .returned false true →
      s.workCount = 0 ∧ s.queue = [] ∧ s.loop.timers.root = none ∧
        (∀ i, (s.loop.op i).start ≠ .workStarted → (s.loop.op i).finish = .doFinish) ∧
        ∀ x, (s.sched x).start ≠ .workStarted → (s.sched x).finish = .doFinish) := by
  have hi := Inv.reachable h
  constructor
  · intro b hb ht hw
    have hcov : ¬ s.Covered := by
      rintro (hpos | ⟨w, hwk⟩)
      · omega
      · exact hw w hwk
    have hwait : s.consumer.Waiting := by
      rw [hb]
      trivial
    obtain ⟨S, hS, hmem⟩ := hi.loop.heap
    refine ⟨by_contra fun hq => hcov (hi.queue hwait hq),
      Nat.pos_of_ne_zero fun h0 => hcov (hi.work hwait.checked h0), S, hS, fun i hiS => ?_⟩
    exact (hi.timers b hb i ((hmem i).1 hiS).2).resolve_right hcov
  · intro a s' hs hp hp'
    obtain ⟨h0, hplain, -⟩ := returns_false hs hp hp'
    have hcalm := hi.calm hplain
    have hfin := fun i => hi.finished (i := i) h0 hcalm
    have hsched := fun x => hi.schedFinished (x := x) h0 hcalm
    refine ⟨h0, ?_, ?_, hfin, hsched⟩
    · refine List.eq_nil_iff_forall_not_mem.2 fun n hn => ?_
      cases n with
      | timer i =>
        obtain ⟨hpos, hq⟩ := hi.timer i hn
        have hop := (OperationState.invariants (hi.loop.op i).reachable).1
        have := hfin i fun hst => by
          have := (hop.posted hpos).2.1
          simp [hst, OperationState.StartPc.Touches] at this
        rw [hq] at this
        cases this
      | sched x =>
        have hq := hi.sched x hn
        have := hsched x fun hst => by
          have := hi.posted x (.inl hn)
          simp [hst] at this
        rw [hq] at this
        cases this
    · obtain ⟨S, hS, hmem⟩ := hi.loop.heap
      by_contra hr
      obtain ⟨r, hr⟩ := Option.ne_none_iff_exists'.1 hr
      have hear : s.loop.timers.earliest = some (s.loop.timers.deadline r) := by
        simp [TimerQueue.earliest, hr]
      obtain ⟨i, hiS, -⟩ := ((hS.earliest _).1 hear).1
      have hop := hi.loop.op i
      obtain ⟨hidle, hmay⟩ := hop.waiting (by rw [((hmem i).1 hiS).2]; trivial)
      have hinv := OperationState.invariants hop.reachable
      have := hfin i fun hst => by simp [OperationState.State.MayPublish, hst] at hmay
      have hpos := hinv.2.2.posted (by rw [this]; rintro ⟨⟩)
      have := posts_of_idle hop.reachable hidle
      omega

/-- The consumer finishes an operation and finds no more work. -/
def emptyRun : List (Act Nat Nat Nat Nat) :=
  [.schedule 3 false, .enqueue 3, .run true, .consumer 0 1, .consumer 0 1, .consumer 0 1,
    .consumer 0 1, .consumer 0 1, .consumer 0 1, .run true]

/-- No timer has a stop token. -/
def unstoppable : System (State Nat Nat Nat Nat) (Act Nat Nat Nat Nat) :=
  system (fun _ => false) id

/-- A thread adds a timer and wakes the consumer up, which finds that the timer is not ready. -/
def blockedRun : List (Act Unit Unit Unit Nat) :=
  [.op () .workStarted false, .op () .doStart false, .add (), .added (),
    .op () (.doStartReturns .pending) false, .op () .arm false, .run true, .consumer 0 1,
    .consumer 0 1, .consumer 0 1, .consumer 0 1, .acquire, .consumer 0 1, .consumer 0 1,
    .consumer 0 1, .consumer 0 1, .consumer 0 1]

/-- One timer, without a stop token, that is due at 5. -/
def oneTimer : System (State Unit Unit Unit Nat) (Act Unit Unit Unit Nat) :=
  system (fun _ => false) fun _ => 5

theorem no_lost_wakeup_empty :
    (∃ s, unstoppable.exec unstoppable.init emptyRun = some s ∧
      (s.sched 3).finish = .doFinish ∧ s.queue = []) ∧
    ∃ s, oneTimer.exec oneTimer.init blockedRun = some s ∧
      s.consumer = .wait (some 5) ∧ s.loop.timers.root = some () ∧ s.queue = [] ∧
      0 < s.workCount ∧ ∃ S, s.loop.timers.Represents S ∧
        ∀ i ∈ S, 5 ≤ s.loop.timers.deadline i := by
  constructor
  · refine ⟨_, rfl, rfl, ?_⟩
    have h := no_lost_wakeup (unstoppable.reachable_exec emptyRun rfl)
    exact (h.2 (.consumer 0 1) _ rfl nofun rfl).2.1
  · have hend : ∃ s ∈ oneTimer.exec oneTimer.init blockedRun,
        s.consumer = .wait (some 5) ∧ s.tokens = 0 ∧ s.loop.timers.root = some () ∧
        (s.loop.op ()).start = .armed ∧ (s.loop.op ()).publish = .idle ∧ s.added () = false ∧
        (s.sched ()).start = .workStarted ∧ s.guard () = .idle ∧ s.stop = .idle := by
      decide +kernel
    obtain ⟨s, hs, hwait, htokens, hroot, hstart, hpublish, hadded, hsched, hguard, hstop⟩ := hend
    have h := no_lost_wakeup (oneTimer.reachable_exec blockedRun hs)
    -- no thread is on its way to `wakeup_consumer()`
    have hcalm : ∀ w, ¬ s.Waking w := by
      intro w
      cases w <;> simp [State.Waking, hstart, hpublish, hadded, hsched, hguard, hstop]
    obtain ⟨hqueue, hwork, S, hS, hdue⟩ := h.1 (some 5) hwait htokens hcalm
    refine ⟨s, hs, hwait, hroot, hqueue, hwork, S, hS, fun i hi => ?_⟩
    obtain ⟨d, hd, hle⟩ := hdue i hi
    obtain rfl := Option.some.inj hd
    exact hle

end Coio.TimeLoop
