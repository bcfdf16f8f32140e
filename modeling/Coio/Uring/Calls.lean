import Coio.Uring.Ring

namespace Coio.Uring
open Transition
open Function (update)
set_option autoImplicit true

def RingPc.job : RingPc ι → Option (Job ι)
  | .idle => none
  | .lock job | .get job _ | .resubmit job _ | .load job | .test job _ | .submit job
  | .unlock job _ => some job

/-- What `start()` does under the lock. -/
def startJob (i : ι) : OperationState.StartPc → Option (Job ι)
  | .inDoStart => some (.op i)
  | .inDoCancel => some (.cancel i)
  | _ => none

/-- What `request_cancel()` does under the lock. -/
def cancelJob (i : ι) : OperationState.CancelPc → Option (Job ι)
  | .inDoCancel => some (.cancel i)
  | _ => none

theorem job_obtained (job : Job ι) : job.obtained.job = some job := by
  cases job <;> rfl

theorem idle_of_job {pc : RingPc ι} (h : pc.job = none) : pc = .idle := by
  cases pc with
  | idle => rfl
  | _ => cases h

theorem cancel_ne_start : (.cancel i : Party ι κ) ≠ .start j := nofun

theorem start_ne_cancel : (.start i : Party ι κ) ≠ .cancel j := nofun

theorem start_ne_thread : (.start i : Party ι κ) ≠ .thread k := nofun

theorem cancel_ne_thread : (.cancel i : Party ι κ) ≠ .thread k := nofun

theorem consumer_ne_thread : (.consumer : Party ι κ) ≠ .thread k := nofun

/-- Every thread in a call under the lock does what its operation is about to do. -/
structure Calls (s : State ι κ) : Prop where
  op : ∀ i, (OperationState.system (s.stoppable i)).Reachable (s.op i)
  start : ∀ i, (s.ring (.start i)).job = startJob i (s.op i).start
  cancel : ∀ i, (s.ring (.cancel i)).job = cancelJob i (s.op i).cancel
  thread : ∀ k i, (s.ring (.thread k)).job ≠ some (.op i) ∧
    (s.ring (.thread k)).job ≠ some (.cancel i)
  consumer : s.ring .consumer = .idle

/-- The operation neither enters nor leaves a call under the lock. -/
structure Framed (i : ι) (o o' : OperationState.State) : Prop where
  start : startJob i o'.start = startJob i o.start
  cancel : cancelJob i o'.cancel = cancelJob i o.cancel
  result : o'.result = o.result

/-- The steps of an operation outside of `do_start()` and `do_cancel()`, and those of the consumer
on it. -/
theorem framed_of_step (hr : (OperationState.system b).Reachable o)
    (hf : free a = true ∨ a = .dequeue ∨ ∃ c, a = .publish c)
    (hs : OperationState.step b o a = some o') (i : ι) : Framed i o o' := by
  have hunregistered := (OperationState.invariants hr).2.1.unregistered
  have hnot : ∀ {p : Prop}, free a = false → (a = .dequeue → p) → (∀ c, a = .publish c → p) →
      p := by
    intro p hfree hd hp
    rcases hf with hf | hf | ⟨c, hf⟩
    · rw [hf] at hfree
      cases hfree
    · exact hd hf
    · exact hp c hf
  cases a with
  | emplace requested =>
    obtain ⟨hp, hs⟩ := Option.ite_none_right_eq_some.1 hs
    have hidle := hunregistered (.inr hp)
    split at hs
    · cases hs
      exact ⟨by rw [hp]; rfl, by rw [hidle]; rfl, rfl⟩
    · cases hs
      exact ⟨by rw [hp]; rfl, rfl, rfl⟩
  | arm =>
    obtain ⟨hp, hs⟩ := Option.ite_none_right_eq_some.1 hs
    (repeat' split at hs) <;> cases hs <;> exact ⟨by rw [hp]; rfl, rfl, rfl⟩
  | armDeferred =>
    obtain ⟨hp, hs⟩ := Option.ite_none_right_eq_some.1 hs
    split at hs <;> cases hs <;> exact ⟨by rw [hp]; rfl, rfl, rfl⟩
  | check =>
    simp only [OperationState.step] at hs
    split at hs
    · rename_i hp
      cases hs
      exact ⟨by rw [hp]; rfl, rfl, rfl⟩
    · cases hs
  | testPrevious =>
    simp only [OperationState.step] at hs
    split at hs
    · cases hs
      exact ⟨rfl, rfl, rfl⟩
    · cases hs
  | doStart | doStartReturns | deferredCancel | deferredCancelReturns | test
  | requestCancelReturns => exact hnot rfl (by rintro ⟨⟩) (by rintro _ ⟨⟩)
  | workStarted =>
    obtain ⟨hp, rfl⟩ := enabled_iff.1 hs
    exact ⟨by rw [hp]; cases b <;> rfl, rfl, rfl⟩
  | emplaced | post | wakeup | published =>
    obtain ⟨hp, rfl⟩ := enabled_iff.1 hs
    exact ⟨by simp_all [startJob], rfl, rfl⟩
  | stop | load =>
    obtain ⟨hp, rfl⟩ := enabled_iff.1 hs
    exact ⟨rfl, by simp_all [cancelJob], rfl⟩
  | _ =>
    obtain ⟨hp, rfl⟩ := enabled_iff.1 hs
    exact ⟨rfl, rfl, rfl⟩

variable [DecidableEq ι] [DecidableEq κ] {s t : State ι κ}

theorem Calls.init (stoppable : ι → Bool) : Calls (system κ entries batch stoppable).init :=
  ⟨fun _ => .init, fun _ => rfl, fun _ => rfl, fun _ _ => by simp [system, RingPc.job], rfl⟩

/-- A thread goes on with what it does. -/
theorem Calls.goto (h : Calls s) (hj : pc.job = (s.ring p).job) : Calls (s.goto p pc) := by
  have hring : ∀ q, ((s.goto p pc).ring q).job = (s.ring q).job := by
    intro q
    by_cases hq : q = p
    · rw [hq, s.goto_self, hj]
    · rw [s.goto_of_ne hq]
  refine { h with start := ?_, cancel := ?_, thread := ?_, consumer := ?_ }
  · exact fun i => (hring _).trans (h.start i)
  · exact fun i => (hring _).trans (h.cancel i)
  · intro k i
    rw [hring]
    exact h.thread k i
  · refine idle_of_job ((hring .consumer).trans ?_)
    rw [h.consumer]
    rfl

omit [DecidableEq κ] in
/-- An operation takes a step while its threads move along with it. -/
theorem Calls.move (h : Calls s) (hs : OperationState.step (s.stoppable i) (s.op i) a = some o)
    {r : Party ι κ → RingPc ι}
    (hstart : (r (.start i)).job = startJob i o.start)
    (hcancel : (r (.cancel i)).job = cancelJob i o.cancel)
    (hother : ∀ p, p ≠ .start i → p ≠ .cancel i → r p = s.ring p) :
    Calls { s with op := update s.op i o, ring := r } where
  op j := by
    by_cases hj : j = i
    · subst hj
      simpa using (h.op j).step hs
    · simpa [hj] using h.op j
  start j := by
    by_cases hj : j = i
    · subst hj
      simpa using hstart
    · simpa [hj, hother (.start j)] using h.start j
  cancel j := by
    by_cases hj : j = i
    · subst hj
      simpa using hcancel
    · simpa [hj, hother (.cancel j)] using h.cancel j
  thread k j := by
    simpa [hother (.thread k)] using h.thread k j
  consumer := by
    simpa [hother .consumer] using h.consumer

omit [DecidableEq κ] in
theorem Calls.framed (h : Calls s) (hs : OperationState.step (s.stoppable i) (s.op i) a = some o)
    (hf : Framed i (s.op i) o) : Calls { s with op := update s.op i o } :=
  h.move hs ((h.start i).trans hf.start.symm) ((h.cancel i).trans hf.cancel.symm)
    fun _ _ _ => rfl

omit [DecidableEq ι] [DecidableEq κ] in
/-- Nobody is in a call under the lock of an operation that is not started or has completed. -/
theorem Calls.done (h : Calls s)
    (hi : (s.op i).start = .workStarted ∨ (s.op i).finish = .doFinish) :
    s.ring (.start i) = .idle ∧ s.ring (.cancel i) = .idle := by
  have hstart := h.start i
  have hcancel := h.cancel i
  have hjobs : startJob i (s.op i).start = none ∧ cancelJob i (s.op i).cancel = none := by
    rcases hi with hi | hi
    · have := (OperationState.invariants (h.op i)).2.1.unregistered (.inl hi)
      rw [hi, this]
      exact ⟨rfl, rfl⟩
    · obtain ⟨ht, -, hr⟩ := OperationState.finished_untouched (h.op i) hi
      constructor
      · cases hp : (s.op i).start <;> simp_all [startJob, OperationState.StartPc.Touches]
      · cases hp : (s.op i).cancel <;> simp_all [cancelJob, OperationState.CancelPc.Running]
  rw [hjobs.1] at hstart
  rw [hjobs.2] at hcancel
  exact ⟨idle_of_job hstart, idle_of_job hcancel⟩

omit [DecidableEq κ] in
theorem Calls.reuse (h : Calls s)
    (hi : (s.op i).start = .workStarted ∨ (s.op i).finish = .doFinish) :
    Calls { s with op := update s.op i {}, stoppable := update s.stoppable i b } := by
  obtain ⟨hstart, hcancel⟩ := h.done hi
  refine { h with op := fun j => ?_, start := fun j => ?_, cancel := fun j => ?_ }
  · by_cases hj : j = i
    · subst hj
      simpa using .init
    · simpa [hj] using h.op j
  · by_cases hj : j = i
    · subst hj
      simp [hstart, RingPc.job, startJob]
    · simpa [hj] using h.start j
  · by_cases hj : j = i
    · subst hj
      simp [hcancel, RingPc.job, cancelJob]
    · simpa [hj] using h.cancel j

/-- The consumer stays where it is, or is at a step outside of the part that pulls. -/
def Calm (c c' : ConsumerPc ι) : Prop :=
  c' = c ∨ c'.Inside = false ∧ c'.Pulled = false ∧ c'.Pulling = false

/-- What a step does to the lock, the queue and the operations. -/
inductive Moves (entries : Nat) (s : State ι κ) : State ι κ → Prop
  | reuse (i : ι) (b : Bool) (hstart : s.ring (.start i) = .idle)
      (hcancel : s.ring (.cancel i) = .idle) :
      Moves entries s { s with
        op := update s.op i {}
        stoppable := update s.stoppable i b
        gen := update s.gen i (s.gen i + 1) }
  | op (i : ι) (o : OperationState.State) (c : ConsumerPc ι) (ready : List (Entry ι))
      (hf : Framed i (s.op i) o) (hc : Calm s.consumer c) :
      Moves entries s { s with op := update s.op i o, consumer := c, ready := ready }
  | enter (op : ι → OperationState.State) (p : Party ι κ) (job : Job ι) (hp : s.ring p = .idle)
      (hne : p ≠ .consumer) (hop : ∀ i, (op i).result = (s.op i).result) :
      Moves entries s { s with op := op, ring := update s.ring p (.lock job) }
  | refuse (i : ι) (o : OperationState.State) (hp : s.ring (.start i) = .lock (.op i))
      (ho : o.result = some .completed) :
      Moves entries s { s with op := update s.op i o, ring := update s.ring (.start i) .idle }
  | lock (p : Party ι κ) (job : Job ι) (hp : s.ring p = .lock job) (hm : s.mtx = none) :
      Moves entries s { s with ring := update s.ring p (.get job 3), mtx := some p }
  | entry (p : Party ι κ) (job : Job ι) (retry : Nat) (hp : s.ring p = .get job retry) :
      Moves entries s { s with
        ring := update s.ring p job.obtained
        sq := s.sq ++ [job.entry s.gen]
        pending := s.pending + 1 }
  | retry (p : Party ι κ) (job : Job ι) (retry : Nat) (hp : s.ring p = .get job (retry + 1)) :
      Moves entries s (s.goto p (.resubmit job retry))
  | exhausted (p : Party ι κ) (i : ι) (hp : s.ring p = .get (.op i) 0) :
      Moves entries s (s.goto p (.unlock (.op i) .completed))
  | resubmit (p : Party ι κ) (job : Job ι) (retry : Nat) (hp : s.ring p = .resubmit job retry) :
      Moves entries s (s.submitSqes.goto p (.get job retry))
  | load (p : Party ι κ) (job : Job ι) (value : Bool) (hp : s.ring p = .load job)
      (hv : value = s.pulling ∨ s.consumer.Pulled = false) :
      Moves entries s (s.goto p (.test job value))
  | test (p : Party ι κ) (job : Job ι) (value : Bool) (pc : RingPc ι)
      (hp : s.ring p = .test job value)
      (hpc : pc = .submit job ∨ value = false ∧ pc = .unlock job .pending) :
      Moves entries s (s.goto p pc)
  | submit (p : Party ι κ) (job : Job ι) (hp : s.ring p = .submit job) :
      Moves entries s (s.submitSqes.goto p (.unlock job .pending))
  | unlock (op : ι → OperationState.State) (p : Party ι κ) (job : Job ι) (r : StartResult)
      (hp : s.ring p = .unlock job r)
      (hop : ∀ i, (op i).result = some .pending → (s.op i).result = some .pending ∨
        p = .start i ∧ job = .op i ∧ r = .pending) :
      Moves entries s { s with op := op, ring := update s.ring p .idle, mtx := none }
  | consume (c : ConsumerPc ι) (pulling infinite : Bool) (flight cq ready : List (Entry ι))
      (hc : c.Inside = false) (hp : c.Pulled = true → s.consumer.Pulled = true)
      (hpull : c.Pulling = true →
        pulling = true ∨ pulling = s.pulling ∧ s.consumer.Pulling = true) :
      Moves entries s { s with
        consumer := c, pulling := pulling, infinite := infinite, flight := flight, cq := cq
        ready := ready }
  | kernel (flight cq : List (Entry ι)) :
      Moves entries s { s with flight := flight, cq := cq }
  | consumer_lock (hc : s.consumer = .lock) (hm : s.mtx = none) :
      Moves entries s { s with mtx := some .consumer, consumer := .submit }
  | consumer_submit (hc : s.consumer = .submit) :
      Moves entries s { s.submitSqes with consumer := .unlock }
  | consumer_unlock (hc : s.consumer = .unlock) :
      Moves entries s { s with mtx := none, consumer := .wait }

omit [DecidableEq ι] [DecidableEq κ] in
theorem State.submitSqes_ring (s : State ι κ) : s.submitSqes.ring = s.ring := by
  unfold State.submitSqes
  split <;> rfl

omit [DecidableEq ι] [DecidableEq κ] in
theorem Calls.submitSqes (h : Calls s) : Calls s.submitSqes := by
  unfold State.submitSqes
  split
  · exact h
  · exact { h with }

omit [DecidableEq κ] in
theorem result_update {o : OperationState.State} (h : o.result = (s.op i).result) (j : ι) :
    (update s.op i o j).result = (s.op j).result :=
  apply_update_of_eq h j

/-- `start()` enters a call under the lock. -/
theorem Calls.enter_start (h : Calls s)
    (hs : OperationState.step (s.stoppable i) (s.op i) a = some o)
    (hidle : startJob i (s.op i).start = none) (hjob : startJob i o.start = some job)
    (hcancel : o.cancel = (s.op i).cancel) (hresult : o.result = (s.op i).result) :
    Moves entries s { s with op := update s.op i o, ring := update s.ring (.start i) (.lock job) } ∧
    Calls { s with op := update s.op i o, ring := update s.ring (.start i) (.lock job) } := by
  refine ⟨.enter _ _ job (idle_of_job ((h.start i).trans hidle)) nofun (result_update hresult),
    h.move hs ?_ ?_ fun p hp _ => Function.update_of_ne hp ..⟩
  · rw [Function.update_self, hjob]
    rfl
  · rw [Function.update_of_ne cancel_ne_start, hcancel]
    exact h.cancel i

/-- The stop callback enters `do_cancel()`. -/
theorem Calls.enter_cancel (h : Calls s)
    (hs : OperationState.step (s.stoppable i) (s.op i) a = some o)
    (hidle : cancelJob i (s.op i).cancel = none) (hjob : cancelJob i o.cancel = some job)
    (hstart : o.start = (s.op i).start) (hresult : o.result = (s.op i).result) :
    Moves entries s { s with
      op := update s.op i o, ring := update s.ring (.cancel i) (.lock job) } ∧
    Calls { s with op := update s.op i o, ring := update s.ring (.cancel i) (.lock job) } := by
  refine ⟨.enter _ _ job (idle_of_job ((h.cancel i).trans hidle)) nofun (result_update hresult),
    h.move hs ?_ ?_ fun p _ hp => Function.update_of_ne hp ..⟩
  · rw [Function.update_of_ne start_ne_cancel, hstart]
    exact h.start i
  · rw [Function.update_self, hjob]
    rfl

/-- A thread that runs no operation enters or leaves a call. -/
theorem Calls.thread_goto (h : Calls s)
    (hjob : ∀ i, pc.job ≠ some (.op i) ∧ pc.job ≠ some (.cancel i)) :
    Calls (s.goto (.thread k) pc) := by
  refine ⟨h.op, fun i => ?_, fun i => ?_, fun k' i => ?_, ?_⟩
  · rw [s.goto_of_ne start_ne_thread]
    exact h.start i
  · rw [s.goto_of_ne cancel_ne_thread]
    exact h.cancel i
  · by_cases hk : k' = k
    · rw [hk, s.goto_self]
      exact hjob i
    · rw [s.goto_of_ne fun he => hk (Party.thread.inj he)]
      exact h.thread k' i
  · rw [s.goto_of_ne consumer_ne_thread]
    exact h.consumer

/-- The consumer, or another thread outside of the lock, moves an operation on. -/
theorem Calls.op_step (h : Calls s) {c : ConsumerPc ι} {ready : List (Entry ι)}
    (hf : free a = true ∨ a = .dequeue ∨ ∃ c, a = .publish c)
    (hs : OperationState.step (s.stoppable i) (s.op i) a = some o) (hc : Calm s.consumer c) :
    Moves entries s { s with op := update s.op i o, consumer := c, ready := ready } ∧
    Calls { s with op := update s.op i o, consumer := c, ready := ready } := by
  have hframed := framed_of_step (h.op i) hf hs i
  exact ⟨.op i o c ready hframed hc, { h.framed hs hframed with }⟩

/-- `do_start()` is left before the lock is taken. -/
theorem Calls.refuse (h : Calls s) (hs : step entries batch s (.refuse i) = some t) :
    Moves entries s t ∧ Calls t := by
  simp only [Uring.step] at hs
  split at hs
  · rename_i j hp
    obtain ⟨u, hu, rfl⟩ := Option.map_eq_some_iff.1 hs
    obtain ⟨o, ho, rfl⟩ := Option.map_eq_some_iff.1 hu
    have hjob := h.start i
    rw [hp] at hjob
    obtain rfl : i = j := by
      cases hst : (s.op i).start <;> rw [hst] at hjob <;> cases hjob
      rfl
    have hmove := ho
    obtain ⟨hstart, rfl⟩ := enabled_iff.1 ho
    refine ⟨.refuse i _ hp rfl, h.move hmove ?_ ?_ fun p hp _ => Function.update_of_ne hp ..⟩
    · rw [Function.update_self]
      rfl
    · rw [Function.update_of_ne cancel_ne_start]
      exact h.cancel i
  · cases hs

/-- The call of an operation returns as its thread releases the lock. -/
theorem Calls.leave (h : Calls s) (hp : s.ring p = .unlock job r)
    (hi : p = .start i ∨ p = .cancel i)
    (hs : OperationState.step (s.stoppable i) (s.op i) a = some o)
    (hstart : startJob i o.start = if p = .start i then none else startJob i (s.op i).start)
    (hcancel : cancelJob i o.cancel = if p = .start i then cancelJob i (s.op i).cancel else none)
    (hresult : o.result = some .pending → (s.op i).result = some .pending ∨
      p = .start i ∧ job = .op i ∧ r = .pending) :
    Moves entries s { s with op := update s.op i o, ring := update s.ring p .idle, mtx := none } ∧
    Calls { s with op := update s.op i o, ring := update s.ring p .idle, mtx := none } := by
  refine ⟨.unlock _ p job r hp fun j hj => ?_, { h.move hs ?_ ?_ fun q hq hq' => ?_ with }⟩
  · by_cases hji : j = i
    · subst hji
      rw [Function.update_self] at hj
      exact hresult hj
    · rw [Function.update_of_ne hji] at hj
      exact .inl hj
  · rw [hstart]
    rcases hi with rfl | rfl
    · rw [if_pos rfl, Function.update_self]
      rfl
    · rw [if_neg cancel_ne_start, Function.update_of_ne start_ne_cancel]
      exact h.start i
  · rw [hcancel]
    rcases hi with rfl | rfl
    · rw [if_pos rfl, Function.update_of_ne cancel_ne_start]
      exact h.cancel i
    · rw [if_neg cancel_ne_start, Function.update_self]
      rfl
  · refine Function.update_of_ne ?_ ..
    rcases hi with rfl | rfl
    · exact hq
    · exact hq'

theorem Calls.returns (h : Calls s) (hp : s.ring p = .unlock job r)
    (hs : s.returns p job r = some t) :
    Moves entries s { t.goto p .idle with mtx := none } ∧
    Calls { t.goto p .idle with mtx := none } := by
  cases p with
  | start i =>
    have hjob := h.start i
    rw [hp] at hjob
    cases job with
    | op j =>
      obtain ⟨o, ho, rfl⟩ := Option.map_eq_some_iff.1 hs
      have hmove := ho
      obtain rfl : i = j := by
        cases hst : (s.op i).start <;> rw [hst] at hjob <;> cases hjob
        rfl
      cases r with
      | completed =>
        obtain ⟨-, rfl⟩ := enabled_iff.1 ho
        exact h.leave hp (.inl rfl) hmove (if_pos rfl).symm (if_pos rfl).symm nofun
      | pending =>
        obtain ⟨-, rfl⟩ := enabled_iff.1 ho
        exact h.leave hp (.inl rfl) hmove (if_pos rfl).symm (if_pos rfl).symm
          fun _ => .inr ⟨rfl, rfl, rfl⟩
    | _ =>
      obtain ⟨o, ho, rfl⟩ := Option.map_eq_some_iff.1 hs
      have hmove := ho
      obtain ⟨-, rfl⟩ := enabled_iff.1 ho
      exact h.leave hp (.inl rfl) hmove (if_pos rfl).symm (if_pos rfl).symm .inl
  | cancel i =>
    obtain ⟨o, ho, rfl⟩ := Option.map_eq_some_iff.1 hs
    have hmove := ho
    obtain ⟨-, rfl⟩ := enabled_iff.1 ho
    exact h.leave hp (.inr rfl) hmove (if_neg cancel_ne_start).symm
      (if_neg cancel_ne_start).symm .inl
  | thread k =>
    obtain rfl : s = t := by
      cases job <;> exact Option.some.inj hs
    exact ⟨.unlock s.op _ job r hp fun _ => .inl,
      { h.thread_goto fun _ => ⟨by nofun, by nofun⟩ with }⟩
  | consumer =>
    rw [h.consumer] at hp
    cases hp

/-- A thread releases the lock, and its call returns. -/
theorem Calls.unlock (h : Calls s) (hs : step entries batch s (.unlock p) = some t) :
    Moves entries s t ∧ Calls t := by
  simp only [Uring.step] at hs
  split at hs
  · rename_i job r hp
    obtain ⟨u, hu, rfl⟩ := Option.map_eq_some_iff.1 hs
    exact h.returns hp hu
  · cases hs

/-- `request_cancel()` enters `do_cancel()` in the phase `armed` only. -/
theorem Calls.test (h : Calls s) (hs : step entries batch s (.test i spurious) = some t) :
    Moves entries s t ∧ Calls t := by
  obtain ⟨u, hu, rfl⟩ := Option.map_eq_some_iff.1 hs
  obtain ⟨o, ho, rfl⟩ := Option.map_eq_some_iff.1 hu
  have hcancel : (update s.op i o i).cancel = o.cancel := by rw [Function.update_self]
  have hstay : o.cancel ≠ .inDoCancel → Framed i (s.op i) o → Moves entries s
      (if (update s.op i o i).cancel = .inDoCancel then
        ({ s with op := update s.op i o } : State ι κ).goto (.cancel i) (.lock (.cancel i))
      else { s with op := update s.op i o }) ∧ Calls
      (if (update s.op i o i).cancel = .inDoCancel then
        ({ s with op := update s.op i o } : State ι κ).goto (.cancel i) (.lock (.cancel i))
      else { s with op := update s.op i o }) := fun hne hf => by
    rw [hcancel, if_neg hne]
    exact ⟨.op i o s.consumer s.ready hf (.inl rfl), h.framed ho hf⟩
  have hmove := ho
  simp only [OperationState.step] at ho
  split at ho
  · rename_i hp
    split at ho
    · cases ho
      exact hstay (by rintro ⟨⟩) ⟨rfl, by rw [hp]; rfl, rfl⟩
    · cases ho
      exact hstay (by rintro ⟨⟩) ⟨rfl, by rw [hp]; rfl, rfl⟩
  · rename_i hp
    cases ho
    dsimp only
    rw [hcancel, if_pos rfl]
    exact h.enter_cancel hmove (by rw [hp]; rfl) rfl rfl rfl
  · rename_i hp
    cases ho
    exact hstay (by rintro ⟨⟩) ⟨rfl, by rw [hp]; rfl, rfl⟩
  · cases ho

theorem Calls.step (h : Calls s) (hs : step entries batch s a = some t) :
    Moves entries s t ∧ Calls t := by
  cases a with
  | reuse i b =>
    obtain ⟨hp, rfl⟩ := enabled_iff.1 hs
    obtain ⟨hstart, hcancel⟩ := h.done hp
    exact ⟨.reuse i b hstart hcancel, { h.reuse hp with }⟩
  | op i a =>
    obtain ⟨hf, hs⟩ := Option.ite_none_right_eq_some.1 hs
    obtain ⟨o, ho, rfl⟩ := Option.map_eq_some_iff.1 hs
    exact h.op_step (.inl hf) ho (.inl rfl)
  | doStart i =>
    obtain ⟨u, hu, rfl⟩ := Option.map_eq_some_iff.1 hs
    obtain ⟨o, ho, rfl⟩ := Option.map_eq_some_iff.1 hu
    have hmove := ho
    obtain ⟨hp, rfl⟩ := enabled_iff.1 ho
    exact h.enter_start hmove (by rw [hp]; rfl) rfl rfl rfl
  | refuse i => exact h.refuse hs
  | deferredCancel i =>
    obtain ⟨u, hu, rfl⟩ := Option.map_eq_some_iff.1 hs
    obtain ⟨o, ho, rfl⟩ := Option.map_eq_some_iff.1 hu
    have hmove := ho
    obtain ⟨hp, rfl⟩ := enabled_iff.1 ho
    exact h.enter_start hmove (by rw [hp]; rfl) rfl rfl rfl
  | test i spurious => exact h.test hs
  | cancelFd k =>
    simp only [Uring.step] at hs
    split at hs
    · cases hs
      exact ⟨.enter s.op _ _ ‹_› nofun fun _ => rfl, h.thread_goto fun _ => ⟨by nofun, by nofun⟩⟩
    · cases hs
  | interrupt k =>
    simp only [Uring.step] at hs
    split at hs
    · cases hs
      exact ⟨.enter s.op _ _ ‹_› nofun fun _ => rfl, h.thread_goto fun _ => ⟨by nofun, by nofun⟩⟩
    · cases hs
  | lock p =>
    simp only [Uring.step] at hs
    split at hs
    · rename_i job hp
      obtain ⟨hm, rfl⟩ := enabled_iff.1 hs
      have hgoto : Calls (s.goto p (.get job 3)) := h.goto (by rw [hp]; rfl)
      exact ⟨.lock p job hp hm, { hgoto with }⟩
    · cases hs
  | get p =>
    simp only [Uring.step] at hs
    split at hs
    · rename_i job retry hp
      have hjob : (s.ring p).job = some job := by rw [hp]; rfl
      split at hs
      · cases hs
        exact ⟨.entry p job retry hp, { h.goto (hjob ▸ job_obtained job) with }⟩
      · split at hs
        · cases hs
          exact ⟨.retry p job _ hp, h.goto hjob.symm⟩
        · split at hs
          · cases hs
            exact ⟨.exhausted p _ hp, h.goto hjob.symm⟩
          · cases hs
    · cases hs
  | resubmit p =>
    simp only [Uring.step] at hs
    split at hs
    · rename_i job retry hp
      cases hs
      exact ⟨.resubmit p job retry hp, h.submitSqes.goto (by rw [s.submitSqes_ring, hp]; rfl)⟩
    · cases hs
  | load p value =>
    simp only [Uring.step] at hs
    split at hs
    · rename_i job hp
      obtain ⟨hv, rfl⟩ := enabled_iff.1 hs
      exact ⟨.load p job value hp hv, h.goto (by rw [hp]; rfl)⟩
    · cases hs
  | testPulling p =>
    simp only [Uring.step] at hs
    split at hs
    · rename_i job value hp
      cases hs
      refine ⟨.test p job value _ hp ?_, h.goto ?_⟩
      · split
        · rename_i hv
          exact .inr ⟨hv.1, rfl⟩
        · exact .inl rfl
      · rw [hp]
        split <;> rfl
    · cases hs
  | submit p =>
    simp only [Uring.step] at hs
    split at hs
    · rename_i job hp
      cases hs
      exact ⟨.submit p job hp, h.submitSqes.goto (by rw [s.submitSqes_ring, hp]; rfl)⟩
    · cases hs
  | unlock p => exact h.unlock hs
  | kernel e =>
    obtain ⟨-, rfl⟩ := enabled_iff.1 hs
    exact ⟨.kernel _ _, { h with }⟩
  | dequeue i =>
    simp only [Uring.step] at hs
    split at hs
    · obtain ⟨u, hu, rfl⟩ := Option.map_eq_some_iff.1 hs
      obtain ⟨o, ho, rfl⟩ := Option.map_eq_some_iff.1 hu
      exact h.op_step (.inr (.inl rfl)) ho (.inr ⟨rfl, rfl, rfl⟩)
    · obtain ⟨u, hu, rfl⟩ := Option.map_eq_some_iff.1 hs
      obtain ⟨o, ho, rfl⟩ := Option.map_eq_some_iff.1 hu
      exact h.op_step (.inr (.inl rfl)) ho (.inr ⟨rfl, rfl, rfl⟩)
    · cases hs
  | publish =>
    simp only [Uring.step] at hs
    split at hs
    · split at hs
      · cases hs
        refine ⟨.consume _ s.pulling s.infinite s.flight s.cq s.ready ?_ ?_ ?_, { h with }⟩
        · split <;> rfl
        · split <;> nofun
        · split <;> nofun
      · obtain ⟨u, hu, rfl⟩ := Option.map_eq_some_iff.1 hs
        obtain ⟨o, ho, rfl⟩ := Option.map_eq_some_iff.1 hu
        exact h.op_step (.inr (.inr ⟨_, rfl⟩)) ho (.inr ⟨rfl, rfl, rfl⟩)
      · cases hs
    · cases hs
  | consumerLock =>
    simp only [Uring.step] at hs
    split at hs
    · rename_i hc
      obtain ⟨hm, rfl⟩ := enabled_iff.1 hs
      exact ⟨.consumer_lock hc hm, { h with }⟩
    · cases hs
  | consumerSubmit =>
    simp only [Uring.step] at hs
    split at hs
    · cases hs
      exact ⟨.consumer_submit ‹_›, { h.submitSqes with }⟩
    · cases hs
  | consumerUnlock =>
    simp only [Uring.step] at hs
    split at hs
    · cases hs
      exact ⟨.consumer_unlock ‹_›, { h with }⟩
    · cases hs
  | doOne infinite =>
    simp only [Uring.step] at hs
    split at hs <;> cases hs
    exact ⟨.consume .work s.pulling infinite s.flight s.cq s.ready rfl nofun nofun, { h with }⟩
  | work zero =>
    simp only [Uring.step] at hs
    split at hs <;> cases hs
    cases zero
    · exact ⟨.consume .consume s.pulling s.infinite s.flight s.cq s.ready rfl nofun nofun,
        { h with }⟩
    · exact ⟨.consume .idle s.pulling s.infinite s.flight s.cq s.ready rfl nofun nofun, { h with }⟩
  | empty =>
    simp only [Uring.step] at hs
    split at hs <;> cases hs
    · exact ⟨.consume .pull s.pulling s.infinite s.flight s.cq s.ready rfl nofun nofun, { h with }⟩
    · exact ⟨.consume .idle s.pulling s.infinite s.flight s.cq s.ready rfl nofun nofun, { h with }⟩
  | finished =>
    simp only [Uring.step] at hs
    split at hs
    · obtain ⟨-, rfl⟩ := enabled_iff.1 hs
      exact ⟨.consume .idle s.pulling s.infinite s.flight s.cq s.ready rfl nofun nofun, { h with }⟩
    · cases hs
  | pull =>
    simp only [Uring.step] at hs
    split at hs <;> cases hs
    exact ⟨.consume .recheck true s.infinite s.flight s.cq s.ready rfl nofun fun _ => .inl rfl,
      { h with }⟩
  | recheck zero =>
    simp only [Uring.step] at hs
    split at hs <;> cases hs
    rename_i hc
    cases zero
    · exact ⟨.consume .lock s.pulling s.infinite s.flight s.cq s.ready rfl nofun
        fun _ => .inr ⟨rfl, by rw [hc]; rfl⟩, { h with }⟩
    · exact ⟨.consume .leave s.pulling s.infinite s.flight s.cq s.ready rfl nofun nofun,
        { h with }⟩
  | wait timeout =>
    simp only [Uring.step] at hs
    split at hs
    · rename_i hc
      have hpulled : s.consumer.Pulled = true := by rw [hc]; rfl
      have hpulling : s.consumer.Pulling = true := by rw [hc]; rfl
      split at hs
      · cases hs
        exact ⟨.consume .peek s.pulling s.infinite s.flight s.cq s.ready rfl (fun _ => hpulled)
          fun _ => .inr ⟨rfl, hpulling⟩, { h with }⟩
      · split at hs <;> cases hs
        exact ⟨.consume .peek s.pulling s.infinite s.flight _ _ rfl (fun _ => hpulled)
          fun _ => .inr ⟨rfl, hpulling⟩, { h with }⟩
    · cases hs
  | fail =>
    simp only [Uring.step] at hs
    split at hs <;> cases hs
    exact ⟨.consume .leave s.pulling s.infinite s.flight s.cq s.ready rfl nofun nofun, { h with }⟩
  | peek =>
    simp only [Uring.step] at hs
    split at hs
    · rename_i hc
      have hpulled : s.consumer.Pulled = true := by rw [hc]; rfl
      have hpulling : s.consumer.Pulling = true := by rw [hc]; rfl
      split at hs
      · cases hs
        exact ⟨.consume .clear s.pulling s.infinite s.flight s.cq s.ready rfl (fun _ => hpulled)
          fun _ => .inr ⟨rfl, hpulling⟩, { h with }⟩
      · cases hs
        exact ⟨.consume s.consumer s.pulling s.infinite s.flight _ _ (by rw [hc]; rfl)
          (fun _ => hpulled) fun _ => .inr ⟨rfl, hpulling⟩, { h with }⟩
    · cases hs
  | clear =>
    simp only [Uring.step] at hs
    split at hs <;> cases hs
    exact ⟨.consume .publish false s.infinite s.flight s.cq s.ready rfl nofun nofun, { h with }⟩
  | leave =>
    simp only [Uring.step] at hs
    split at hs <;> cases hs
    exact ⟨.consume .idle false s.infinite s.flight s.cq s.ready rfl nofun nofun, { h with }⟩
  | published =>
    simp only [Uring.step] at hs
    split at hs
    · obtain ⟨-, rfl⟩ := enabled_iff.1 hs
      exact ⟨.consume .publish s.pulling s.infinite s.flight s.cq s.ready rfl nofun nofun,
        { h with }⟩
    · cases hs

end Coio.Uring
