import Coio.Uring.Calls

namespace Coio.Uring
open Transition
open Function (update)
set_option autoImplicit true

theorem ConsumerPc.Pulled.pulling {c : ConsumerPc ι} (h : c.Pulled = true) : c.Pulling = true := by
  cases c with
  | wait | peek | clear => rfl
  | _ => cases h

theorem obtained_fine (job : Job ι) : job.obtained.Fine entries pulled := by
  cases job <;> trivial

variable [DecidableEq ι] [DecidableEq κ] {s t : State ι κ}

/-- A step of the thread that holds the lock and keeps it, without a submission. -/
theorem Ring.inside_goto (h : Ring s) (hp : (s.ring p).Inside = true)
    (hfine : pc.Fine s.sq (s.consumer.Pulled = true)) : Ring (s.goto p pc) :=
  { h.holder hp h.pending (.inl (h.mtx p hp)) hfine with }

/-- A submission by the thread that holds the lock. -/
theorem Ring.submit_goto (h : Ring s) (hp : (s.ring p).Inside = true)
    (hfine : pc.Fine [] (s.consumer.Pulled = true)) : Ring (s.submitSqes.goto p pc) := by
  rw [h.submitSqes]
  exact { h.holder hp (rfl : 0 = ([] : List (Entry ι)).length) (.inl (h.mtx p hp)) hfine with }

theorem Ring.step (h : Ring s) (hm : Moves entries s t) : Ring t := by
  have hinside : ∀ {p pc}, s.ring p = pc → pc.Inside = true → (s.ring p).Inside = true :=
    fun hp hpc => by rw [hp, hpc]
  have hconsumer : ∀ {p pc}, s.ring p = pc → pc ≠ .idle → p ≠ .consumer := by
    rintro p pc hp hpc rfl
    exact hpc (hp.symm.trans h.no_consumer)
  cases hm with
  | reuse => exact { h with }
  | kernel => exact { h with }
  | op i o c ready hf hc =>
    rcases hc with rfl | ⟨hin, hpulled, hpulling⟩
    · exact { h with }
    · exact { h.consume (b := s.pulling) hin (by rw [hpulled]; nofun)
        (by rw [hpulling]; nofun) with }
  | enter op p job hp hne hop => exact { h.outside (by rw [hp]; rfl) rfl hne with }
  | refuse i o hp ho => exact { h.outside (by rw [hp]; rfl) rfl (hconsumer hp nofun) with }
  | lock p job hp hm => exact h.lock hm (hconsumer hp nofun)
  | entry p job retry hp =>
    have hin := hinside hp rfl
    have hlen : s.pending + 1 = (s.sq ++ [job.entry s.gen]).length := by
      rw [h.pending, List.length_append, List.length_singleton]
    exact { h.holder hin hlen (.inl (h.mtx p hin)) (obtained_fine job) with }
  | retry p job retry hp => exact h.inside_goto (hinside hp rfl) trivial
  | exhausted p i hp =>
    have hfine := h.fine p
    rw [hp] at hfine
    exact h.inside_goto (hinside hp rfl) fun _ => hfine nofun
  | resubmit p job retry hp => exact h.submit_goto (hinside hp rfl) fun _ => rfl
  | load p job value hp hv =>
    refine h.inside_goto (hinside hp rfl) fun hpulled => ?_
    rcases hv with rfl | hv
    · exact h.pulling (ConsumerPc.Pulled.pulling hpulled)
    · rw [hv] at hpulled
      cases hpulled
  | test p job value pc hp hpc =>
    refine h.inside_goto (hinside hp rfl) ?_
    rcases hpc with rfl | ⟨hv, rfl⟩
    · trivial
    · have hfine := h.fine p
      rw [hp] at hfine
      exact fun hpulled => absurd (hfine hpulled) (by rw [hv]; nofun)
  | submit p job hp => exact h.submit_goto (hinside hp rfl) fun _ => rfl
  | unlock op p job r hp hop =>
    have hfine := h.fine p
    rw [hp] at hfine
    have hidle : (RingPc.idle : RingPc ι).Fine s.sq (s.consumer.Pulled = true) := trivial
    exact { h.holder (hinside hp rfl) h.pending (.inr ⟨rfl, rfl, hfine⟩) hidle with }
  | consume c pulling infinite flight cq ready hc hp hpull =>
    refine { h.consume hc hp fun hpulling => ?_ with }
    rcases hpull hpulling with hpull | ⟨hpull, hconsumer⟩
    · exact hpull
    · exact hpull.trans (h.pulling hconsumer)
  | consumer_lock hc hm =>
    have hout := h.nobody (.inl hm)
    exact { h with
      mtx := fun q hq => absurd hq (by rw [hout q]; nofun)
      mtx_consumer := fun _ => rfl
      pulling := fun _ => h.pulling (by rw [hc]; rfl)
      fine := fun q => .of_outside (hout q)
      flushed := nofun
      free := nofun }
  | consumer_submit hc =>
    have hm := h.mtx_consumer (by rw [hc]; rfl)
    have hout := h.nobody (.inr hm)
    rw [h.submitSqes]
    exact { h with
      pending := rfl
      mtx_consumer := fun _ => hm
      pulling := fun _ => h.pulling (by rw [hc]; rfl)
      fine := fun q => .of_outside (hout q)
      flushed := fun _ => rfl
      free := fun _ _ => rfl }
  | consumer_unlock hc =>
    have hm := h.mtx_consumer (by rw [hc]; rfl)
    have hout := h.nobody (.inr hm)
    exact { h with
      mtx := fun q hq => absurd hq (by rw [hout q]; nofun)
      mtx_consumer := nofun
      pulling := fun _ => h.pulling (by rw [hc]; rfl)
      fine := fun q => .of_outside (hout q)
      flushed := nofun
      free := fun _ _ => h.flushed hc }

/-- The entries in the order in which they are obtained. -/
def State.log (s : State ι κ) : List (Entry ι) := s.submitted ++ s.sq

/-- The thread has obtained the entry of the operation `i`. -/
def RingPc.Obtained (i : ι) : RingPc ι → Prop
  | .load job | .test job _ | .submit job | .unlock job .pending => job = .op i
  | _ => False

/-- What the entries say about their operations. An entry that cancels is in the queue only while
the thread that obtained it is about to submit it. -/
structure Entries (s : State ι κ) : Prop where
  cancels : ∀ i g, .cancel i g ∈ s.sq → g = s.gen i ∧
    ∃ p, (p = .start i ∨ p = .cancel i) ∧ s.ring p = .submit (.cancel i)
  obtained : ∀ i, (s.op i).result = some .pending ∨ (s.ring (.start i)).Obtained i →
    .op i (s.gen i) ∈ s.log
  preceded : ∀ l₁ i g l₂, s.log = l₁ ++ .cancel i g :: l₂ → .op i g ∈ l₁

theorem Entries.init (stoppable : ι → Bool) :
    Entries (system κ entries batch stoppable).init := by
  refine ⟨nofun, fun i hi => ?_, fun l₁ i g l₂ hl => ?_⟩
  · rcases hi with hi | hi <;> cases hi
  · cases l₁ <;> cases hl

omit [DecidableEq ι] [DecidableEq κ] in
/-- A step that obtains no entry and leaves the queue as it is, or empty. -/
theorem Entries.keep (h : Entries s) (hlog : t.log = s.log) (hgen : t.gen = s.gen)
    (hsq : t.sq = [] ∨ t.sq = s.sq ∧
      ∀ p i, s.ring p = .submit (.cancel i) → t.ring p = .submit (.cancel i))
    (hgot : ∀ i, (t.op i).result = some .pending ∨ (t.ring (.start i)).Obtained i →
      (s.op i).result = some .pending ∨ (s.ring (.start i)).Obtained i) : Entries t where
  cancels i g hi := by
    rcases hsq with hsq | ⟨hsq, hring⟩
    · rw [hsq] at hi
      cases hi
    · rw [hsq] at hi
      obtain ⟨hg, p, hp, hsubmit⟩ := h.cancels i g hi
      exact ⟨hgen ▸ hg, p, hp, hring p i hsubmit⟩
  obtained i hi := by
    rw [hlog, hgen]
    exact h.obtained i (hgot i hi)
  preceded := by
    rw [hlog]
    exact h.preceded

theorem submit_update (hp : s.ring p = pc) (hsubmit : ∀ i, pc ≠ .submit (.cancel i))
    (q : Party ι κ) (i : ι) (hq : s.ring q = .submit (.cancel i)) :
    update s.ring p pc' q = .submit (.cancel i) := by
  refine (Function.update_of_ne ?_ ..).trans hq
  rintro rfl
  exact hsubmit i (hp.symm.trans hq)

theorem obtained_update (hp : s.ring p = pc) (hgot : ∀ i, pc'.Obtained i → pc.Obtained i) (i : ι)
    (hi : (update s.ring p pc' (.start i)).Obtained i) : (s.ring (.start i)).Obtained i := by
  by_cases hip : .start i = p
  · subst hip
    rw [Function.update_self] at hi
    rw [hp]
    exact hgot i hi
  · rwa [Function.update_of_ne hip] at hi

/-- A thread that is not about to submit goes on, with no entry that it did not have. -/
theorem Entries.goto (h : Entries s) (hp : s.ring p = pc) (hsubmit : ∀ i, pc ≠ .submit (.cancel i))
    (hgot : ∀ i, pc'.Obtained i → pc.Obtained i) :
    Entries { s with ring := update s.ring p pc' } :=
  h.keep rfl rfl (.inr ⟨rfl, submit_update hp hsubmit⟩)
    fun i hi => hi.imp_right (obtained_update hp hgot i)

/-- A submission takes the queue over in its order. -/
theorem Entries.submit_goto (h : Entries s) (hr : Ring s) (hp : s.ring p = pc)
    (hgot : ∀ i, pc'.Obtained i → pc.Obtained i) : Entries (s.submitSqes.goto p pc') := by
  rw [hr.submitSqes]
  exact h.keep (List.append_nil _) rfl (.inl rfl)
    fun i hi => hi.imp_right (obtained_update hp hgot i)

omit [DecidableEq ι] [DecidableEq κ] in
/-- A thread in `do_cancel()` works for an operation whose `do_start()` has left it pending. -/
theorem Calls.cancels (h : Calls s) (hp : (s.ring p).job = some (.cancel i)) :
    (p = .start i ∨ p = .cancel i) ∧ (s.op i).result = some .pending := by
  cases p with
  | start j =>
    rw [h.start j] at hp
    obtain ⟨rfl, hstart⟩ : j = i ∧ (s.op j).start = .inDoCancel := by
      cases hst : (s.op j).start <;> rw [hst] at hp <;> cases hp
      exact ⟨rfl, rfl⟩
    have hresult := (OperationState.invariants (h.op j)).1.result
    rw [hstart] at hresult
    exact ⟨.inl rfl, hresult⟩
  | cancel j =>
    rw [h.cancel j] at hp
    obtain ⟨rfl, hcancel⟩ : j = i ∧ (s.op j).cancel = .inDoCancel := by
      cases hst : (s.op j).cancel <;> rw [hst] at hp <;> cases hp
      exact ⟨rfl, rfl⟩
    have hresult := (OperationState.invariants (h.op j)).1.result
    rw [OperationState.inDoCancel_armed (h.op j) hcancel] at hresult
    exact ⟨.inr rfl, hresult⟩
  | thread k => exact absurd hp (h.thread k i).2
  | consumer =>
    rw [h.consumer] at hp
    cases hp

omit [DecidableEq ι] in
theorem obtained_cancel {job : Job ι} (h : job.entry gen = .cancel i g) :
    job = .cancel i ∧ g = gen i := by
  cases job <;> cases h
  exact ⟨rfl, rfl⟩

omit [DecidableEq ι] in
theorem obtained_op {job : Job ι} (h : job.obtained.Obtained i) : job = .op i := by
  cases job <;> exact h

/-- The thread that holds the lock obtains an entry. -/
theorem Entries.entry (h : Entries s) (hc : Calls s) (hr : Ring s)
    (hp : s.ring p = .get job retry) : Entries { s with
      ring := update s.ring p job.obtained
      sq := s.sq ++ [job.entry s.gen]
      pending := s.pending + 1 } := by
  have hin : (s.ring p).Inside = true := by rw [hp]; rfl
  have hjob : (s.ring p).job = some job := by rw [hp]; rfl
  have hlog : ∀ e, e ∈ s.log → e ∈ s.submitted ++ (s.sq ++ [job.entry s.gen]) := fun e he => by
    rw [← List.append_assoc]
    exact List.mem_append_left _ he
  refine ⟨fun i g hi => ?_, fun i hi => ?_, fun l₁ i g l₂ hl => ?_⟩
  · rcases List.mem_append.1 hi with hi | hi
    · obtain ⟨-, q, -, hq⟩ := h.cancels i g hi
      have hqp : q = p := by
        by_contra hqp
        have := hr.alone hin hqp
        rw [hq] at this
        cases this
      rw [hqp, hp] at hq
      cases hq
    · obtain ⟨rfl, hg⟩ := obtained_cancel (List.mem_singleton.1 hi).symm
      exact ⟨hg, p, (hc.cancels hjob).1, Function.update_self ..⟩
  · by_cases hi' : (s.op i).result = some .pending ∨ (s.ring (.start i)).Obtained i
    · exact hlog _ (h.obtained i hi')
    · have hip : .start i = p := by
        by_contra hip
        rcases hi with hi | hi
        · exact hi' (.inl hi)
        · dsimp only at hi
          rw [Function.update_of_ne hip] at hi
          exact hi' (.inr hi)
      rcases hi with hi | hi
      · exact absurd (.inl hi) hi'
      · subst hip
        dsimp only at hi
        rw [Function.update_self] at hi
        rw [obtained_op hi]
        exact List.mem_append_right _ (List.mem_append_right _ (.head _))
  · have hl : s.log ++ [job.entry s.gen] = l₁ ++ .cancel i g :: l₂ := by
      rw [← hl]
      exact List.append_assoc ..
    rcases List.eq_nil_or_concat l₂ with rfl | ⟨l₂, e, rfl⟩
    · obtain ⟨rfl, he⟩ := List.append_inj' hl rfl
      obtain ⟨rfl, rfl⟩ := obtained_cancel (List.singleton_inj.1 he)
      exact h.obtained i (.inl (hc.cancels hjob).2)
    · rw [List.concat_eq_append, ← List.cons_append, ← List.append_assoc] at hl
      exact h.preceded l₁ i g l₂ (List.append_inj' hl rfl).1

theorem Entries.step (h : Entries s) (hc : Calls s) (hr : Ring s) (hm : Moves entries s t) :
    Entries t := by
  cases hm with
  | reuse i b hstart hcancel =>
    refine ⟨fun j g hj => ?_, fun j hj => ?_, h.preceded⟩
    · obtain ⟨hg, p, hp, hsubmit⟩ := h.cancels j g hj
      have hji : j ≠ i := by
        rintro rfl
        rcases hp with rfl | rfl
        · cases hstart.symm.trans hsubmit
        · cases hcancel.symm.trans hsubmit
      exact ⟨hg.trans (Function.update_of_ne hji ..).symm, p, hp, hsubmit⟩
    · by_cases hji : j = i
      · subst hji
        rcases hj with hj | hj
        · dsimp only at hj
          rw [Function.update_self] at hj
          cases hj
        · dsimp only at hj
          rw [hstart] at hj
          cases hj
      · dsimp only at hj ⊢
        rw [Function.update_of_ne hji] at hj ⊢
        exact h.obtained j hj
  | op i o c ready hf hcalm =>
    refine h.keep rfl rfl (.inr ⟨rfl, fun _ _ hq => hq⟩) fun j hj => hj.imp_left fun hj => ?_
    exact (result_update hf.result j).symm.trans hj
  | enter op p job hp hne hop =>
    exact h.keep rfl rfl (.inr ⟨rfl, submit_update hp nofun⟩) fun i hi =>
      hi.imp (hop i).symm.trans (obtained_update hp (by nofun) i)
  | refuse i o hp ho =>
    refine h.keep rfl rfl (.inr ⟨rfl, submit_update hp nofun⟩) fun j hj =>
      hj.imp (fun hj => ?_) (obtained_update hp (by nofun) j)
    by_cases hji : j = i
    · subst hji
      dsimp only at hj
      rw [Function.update_self, ho] at hj
      cases hj
    · dsimp only at hj
      rwa [Function.update_of_ne hji] at hj
  | lock p job hp hm' => exact { h.goto hp nofun (by nofun) with }
  | entry p job retry hp => exact h.entry hc hr hp
  | retry p job retry hp => exact h.goto hp nofun (by nofun)
  | exhausted p i hp => exact h.goto hp nofun (by nofun)
  | resubmit p job retry hp => exact h.submit_goto hr hp (by nofun)
  | load p job value hp hv => exact h.goto hp nofun fun i hi => hi
  | test p job value pc hp hpc =>
    refine h.goto hp nofun fun i hi => ?_
    rcases hpc with rfl | ⟨-, rfl⟩ <;> exact hi
  | submit p job hp => exact h.submit_goto hr hp fun i hi => hi
  | unlock op p job r hp hop =>
    refine h.keep rfl rfl (.inr ⟨rfl, submit_update hp nofun⟩) fun i hi => ?_
    rcases hi with hi | hi
    · rcases hop i hi with hi | ⟨rfl, rfl, rfl⟩
      · exact .inl hi
      · exact .inr (by rw [hp]; rfl)
    · exact .inr (obtained_update hp (by nofun) i hi)
  | consume c pulling infinite flight cq ready hc' hp hpull => exact { h with }
  | kernel flight cq => exact { h with }
  | consumer_lock hc' hm' => exact { h with }
  | consumer_submit hc' =>
    rw [hr.submitSqes]
    exact h.keep (List.append_nil _) rfl (.inl rfl) fun _ hi => hi
  | consumer_unlock hc' => exact { h with }

theorem invariants (h : (system κ entries batch stoppable).Reachable s) :
    Calls s ∧ Ring s ∧ Entries s := by
  refine System.Invariant.reachable (I := fun s => Calls s ∧ Ring s ∧ Entries s)
    ⟨⟨.init stoppable, .init stoppable, .init stoppable⟩, fun s a t _ ⟨hc, hr, he⟩ hs => ?_⟩ h
  obtain ⟨hm, hc'⟩ := hc.step hs
  exact ⟨hc', hr.step hm, he.step hc hr hm⟩

/-- The counter counts the entries that are obtained and not submitted, and there are none while the
consumer waits and the lock is free. An operation's entry comes before those that cancel it, and
these leave the queue before the operation can complete and its address can be used again. -/
theorem batching (h : (system κ entries batch stoppable).Reachable s) :
    s.pending = s.sq.length ∧
    (s.consumer = .wait → s.mtx = none → s.pending = 0) ∧
    (∀ l₁ i g l₂, s.submitted ++ s.sq = l₁ ++ .cancel i g :: l₂ → .op i g ∈ l₁) ∧
    (∀ i g, .cancel i g ∈ s.sq → g = s.gen i ∧ (s.op i).finish ≠ .doFinish) := by
  obtain ⟨hc, hr, he⟩ := invariants h
  refine ⟨hr.pending, fun hw hm => ?_, he.preceded, fun i g hi => ?_⟩
  · rw [hr.pending, hr.free hm (by rw [hw]; rfl)]
    rfl
  · obtain ⟨hg, p, hp, hsubmit⟩ := he.cancels i g hi
    refine ⟨hg, fun hf => ?_⟩
    obtain ⟨hstart, hcancel⟩ := hc.done (.inr hf)
    rcases hp with rfl | rfl
    · cases hstart.symm.trans hsubmit
    · cases hcancel.symm.trans hsubmit

/-- An operation is left to the consumer, which submits it and waits; then it is cancelled. -/
def deferredRun : List (Act Unit Unit) :=
  [.op () .workStarted, .op () (.emplace false), .doStart (), .lock (.start ()), .get (.start ()),
    .doOne true, .work false, .empty, .load (.start ()) false, .pull, .testPulling (.start ()),
    .unlock (.start ()), .op () .arm, .recheck false, .consumerLock, .consumerSubmit,
    .consumerUnlock, .op () .stop, .op () .load, .test () false, .lock (.cancel ()),
    .get (.cancel ()), .submit (.cancel ()), .unlock (.cancel ())]

theorem batching_deferred : ∃ s, (system Unit 8 4 fun _ : Unit => true).exec
      (system Unit 8 4 fun _ : Unit => true).init deferredRun = some s ∧
    s.submitted = [.op () 0, .cancel () 0] ∧ s.pending = 0 := by
  refine ⟨_, rfl, rfl, ?_⟩
  exact (batching ((system Unit 8 4 fun _ : Unit => true).reachable_exec deferredRun rfl)).2.1
    rfl rfl

end Coio.Uring
