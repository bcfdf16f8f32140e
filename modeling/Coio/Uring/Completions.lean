import Coio.Uring.Batching

namespace Coio.Uring
open Transition
open Function (update)
set_option autoImplicit true

/-- The entry of the operation is obtained, and its `do_start()` returns `pending` or has done. -/
def Begun (i : ι) (o : OperationState.State) (pc : RingPc ι) : Prop :=
  o.result = some .pending ∨ pc.Obtained i

variable [DecidableEq ι] [DecidableEq κ] {s t : State ι κ}
  {es es' : List (Entry ι)}

/-- Where an entry is from the time it is obtained until the consumer publishes its operation. -/
def State.pool (s : State ι κ) : List (Entry ι) :=
  s.sq ++ s.flight ++ s.cq ++ s.ready

/-- What the entries `es` say about the operation at `i`, whose number is `gen`. -/
structure Tracked (i : ι) (o : OperationState.State) (pc : RingPc ι) (gen : Nat)
    (es : List (Entry ι)) : Prop where
  once : o.publish = .idle → Begun i o pc → es.count (.op i gen) = 1
  begun : ∀ g, .op i g ∈ es → g = gen ∧ o.publish = .idle ∧ Begun i o pc
  early : o.publish ≠ .idle → o.result = some .completed ∨ Begun i o pc

structure Counted (s : State ι κ) : Prop where
  tracked : ∀ i, Tracked i (s.op i) (s.ring (.start i)) (s.gen i) s.pool
  ready : ∀ e ∈ s.ready, e.isOp = true
  publishing : ∀ i, s.consumer = .publishing i →
    (s.op i).publish ≠ .idle ∧ (s.op i).finish = .queued

omit [DecidableEq κ] in
theorem Tracked.congr (h : Tracked i o pc gen es)
    (hpool : ∀ g, es'.count (.op i g) = es.count (.op i g))
    (hpublish : o'.publish = .idle ↔ o.publish = .idle) (hresult : o'.result = o.result)
    (hring : pc'.Obtained i ↔ pc.Obtained i) : Tracked i o' pc' gen es' where
  once hidle hbegun := by
    rw [Begun, hresult, hring] at hbegun
    rw [hpool]
    exact h.once (hpublish.1 hidle) hbegun
  begun g hg := by
    rw [← List.count_pos_iff, hpool, List.count_pos_iff] at hg
    rw [Begun, hresult, hring, hpublish]
    exact h.begun g hg
  early hidle := by
    rw [Begun, hresult, hring]
    exact h.early (mt hpublish.2 hidle)

/-- Without an entry an operation has not begun, or is published. -/
theorem Tracked.absent (hnone : ∀ g, .op i g ∉ es) (hbegun : o.publish = .idle → ¬ Begun i o pc)
    (hearly : o.publish ≠ .idle → o.result = some .completed ∨ Begun i o pc) :
    Tracked i o pc gen es where
  once hidle h := absurd h (hbegun hidle)
  begun g hg := absurd hg (hnone g)
  early := hearly

theorem Counted.init (stoppable : ι → Bool) :
    Counted (system κ entries batch stoppable).init := by
  refine ⟨fun i => .absent (fun g => nofun) ?_ (fun h => absurd rfl h), nofun, nofun⟩
  rintro - (h | h) <;> cases h

omit [DecidableEq κ] in
/-- A step after which every entry is still there and every operation is where it was. -/
theorem Counted.keep (h : Counted s)
    (hpool : ∀ i g, t.pool.count (.op i g) = s.pool.count (.op i g)) (hgen : t.gen = s.gen)
    (hop : ∀ i, ((t.op i).publish = .idle ↔ (s.op i).publish = .idle) ∧
      (t.op i).result = (s.op i).result)
    (hring : ∀ i, (t.ring (.start i)).Obtained i ↔ (s.ring (.start i)).Obtained i)
    (hready : ∀ e ∈ t.ready, e.isOp = true)
    (hpublishing : ∀ i, t.consumer = .publishing i →
      (t.op i).publish ≠ .idle ∧ (t.op i).finish = .queued) : Counted t where
  tracked i := by
    rw [hgen]
    exact (h.tracked i).congr (hpool i) (hop i).1 (hop i).2 (hring i)
  ready := hready
  publishing := hpublishing

theorem obtained_update_iff {p : Party ι κ} (hp : s.ring p = pc)
    (hgot : ∀ i, pc'.Obtained i ↔ pc.Obtained i) (i : ι) :
    (update s.ring p pc' (.start i)).Obtained i ↔ (s.ring (.start i)).Obtained i := by
  by_cases hip : .start i = p
  · subst hip
    rw [Function.update_self, hp]
    exact hgot i
  · rw [Function.update_of_ne hip]

/-- A thread goes on with the entry that it has, or without one. -/
theorem Counted.goto (h : Counted s) (hp : s.ring p = pc)
    (hgot : ∀ i, pc'.Obtained i ↔ pc.Obtained i) :
    Counted { s with ring := update s.ring p pc' } :=
  h.keep (fun _ _ => rfl) rfl (fun _ => ⟨.rfl, rfl⟩) (obtained_update_iff hp hgot) h.ready
    h.publishing

omit [DecidableEq κ] in
/-- A submission moves the entries on to the kernel. -/
theorem Counted.submitSqes (h : Counted s) (hr : Ring s) : Counted s.submitSqes := by
  rw [hr.submitSqes]
  refine h.keep (fun i g => ?_) rfl (fun _ => ⟨.rfl, rfl⟩) (fun _ => .rfl) h.ready h.publishing
  simp only [State.pool, List.count_append, List.count_nil]
  omega

omit [DecidableEq ι] in
/-- An operation that nobody has published is not finished. -/
theorem queued_of_idle (hr : (OperationState.system b).Reachable o) (hp : o.publish = .idle) :
    o.finish = .queued := by
  obtain ⟨hi, -, hf⟩ := OperationState.invariants hr
  by_contra hq
  have hposts := hi.posts
  have hcompleted : o.phase ≠ .completed := fun hc => by
    have := hi.exchanged.1 hc
    rw [hp] at this
    cases this
  have hstart : ¬ (o.start = .wakeup ∨ o.start = .posted) := by
    have hallows := hi.start
    rintro (hs | hs) <;> rw [hs] at hallows <;> exact hcompleted hallows
  rw [if_neg hstart, if_neg (by rw [hp]; rintro ⟨-, h | h⟩ <;> cases h)] at hposts
  exact absurd (hf.posted hq) (by omega)

omit [DecidableEq ι] in
/-- No step outside of the calls that may publish an operation starts or undoes its `publish()`. -/
theorem publish_of_step (hf : free a = true ∨ a = .dequeue)
    (hs : OperationState.step b o a = some o') : o'.publish = .idle ↔ o.publish = .idle := by
  have hnot : ∀ {p : Prop}, free a = false → (a = .dequeue → p) → p := by
    intro p hfree hd
    rcases hf with hf | hf
    · rw [hf] at hfree
      cases hfree
    · exact hd hf
  cases a with
  | doStart | doStartReturns | deferredCancel | deferredCancelReturns | test
  | requestCancelReturns | publish => exact hnot rfl (by rintro ⟨⟩)
  | emplace | arm | armDeferred =>
    obtain ⟨-, hs⟩ := Option.ite_none_right_eq_some.1 hs
    (repeat' split at hs) <;> cases hs <;> exact .rfl
  | check =>
    simp only [OperationState.step] at hs
    split at hs
    · cases hs
      exact .rfl
    · cases hs
  | testPrevious =>
    simp only [OperationState.step] at hs
    split at hs
    · rename_i hp
      cases hs
      rw [hp]
      refine iff_of_false ?_ (by rintro ⟨⟩)
      dsimp only
      split <;> rintro ⟨⟩
    · cases hs
  | exchange | publishPost | publishWakeup =>
    obtain ⟨hp, rfl⟩ := enabled_iff.1 hs
    rw [hp]
    exact iff_of_false (by rintro ⟨⟩) (by rintro ⟨⟩)
  | _ =>
    obtain ⟨-, rfl⟩ := enabled_iff.1 hs
    exact .rfl

omit [DecidableEq ι] in
/-- Only the consumer takes an operation out of the op queue. -/
theorem finish_of_step (hf : free a = true) (hs : OperationState.step b o a = some o')
    (hq : o.finish = .queued) : o'.finish = .queued := by
  cases a with
  | doStart | doStartReturns | deferredCancel | deferredCancelReturns | test
  | requestCancelReturns | publish | dequeue => cases hf
  | emplace | arm | armDeferred =>
    obtain ⟨-, hs⟩ := Option.ite_none_right_eq_some.1 hs
    (repeat' split at hs) <;> cases hs <;> exact hq
  | check | testPrevious =>
    simp only [OperationState.step] at hs
    split at hs
    · cases hs
      exact hq
    · cases hs
  | workFinished =>
    obtain ⟨hp, -⟩ := enabled_iff.1 hs
    cases hp.symm.trans hq
  | reset =>
    obtain ⟨hp, -⟩ := enabled_iff.1 hs
    cases hp.1.symm.trans hq
  | _ =>
    obtain ⟨-, rfl⟩ := enabled_iff.1 hs
    exact hq

omit [DecidableEq κ] in
/-- A step of an operation that neither publishes it nor gives it a result. -/
theorem Counted.op_step (h : Counted s) (hresult : o.result = (s.op i).result)
    (hpublish : o.publish = .idle ↔ (s.op i).publish = .idle)
    (hfinish : s.consumer = .publishing i → o.finish = (s.op i).finish) :
    Counted { s with op := update s.op i o } := by
  have hop : ∀ j, ((update s.op i o j).publish = .idle ↔ (s.op j).publish = .idle) ∧
      (update s.op i o j).result = (s.op j).result := fun j => by
    by_cases hj : j = i
    · rw [hj, Function.update_self]
      exact ⟨hpublish, hresult⟩
    · rw [Function.update_of_ne hj]
      exact ⟨.rfl, rfl⟩
  refine h.keep (fun _ _ => rfl) rfl hop (fun _ => .rfl) h.ready fun j hj => ?_
  obtain ⟨hidle, hqueued⟩ := h.publishing j hj
  refine ⟨mt (hop j).1.1 hidle, ?_⟩
  dsimp only
  by_cases hji : j = i
  · subst hji
    rw [Function.update_self]
    exact (hfinish hj).trans hqueued
  · rwa [Function.update_of_ne hji]

omit [DecidableEq κ] in
/-- A step of the consumer alone. -/
theorem Counted.consume (h : Counted s) (hc : ∀ i, c ≠ .publishing i) :
    Counted { s with consumer := c } :=
  { h with publishing := fun i hi => absurd hi (hc i) }

omit [DecidableEq κ] in
/-- An operation that has no entry may be published, but has not begun otherwise. -/
theorem Counted.not_begun (h : Counted s) (hc : Calls s) (hi : (s.op i).start = .workStarted) :
    (s.op i).publish = .idle ∧ ¬ Begun i (s.op i) (s.ring (.start i)) := by
  obtain ⟨hstart, -⟩ := hc.done (.inl hi)
  have hresult := (OperationState.invariants (hc.op i)).1.result
  rw [hi] at hresult
  have hb : ¬ Begun i (s.op i) (s.ring (.start i)) := by
    rintro (hb | hb)
    · cases hresult.symm.trans hb
    · rw [hstart] at hb
      exact hb
  refine ⟨?_, hb⟩
  by_contra hidle
  rcases (h.tracked i).early hidle with he | he
  · cases hresult.symm.trans he
  · exact hb he

omit [DecidableEq κ] in
/-- An operation that is not started or has completed has no entry. -/
theorem Counted.absent (h : Counted s) (hc : Calls s)
    (hi : (s.op i).start = .workStarted ∨ (s.op i).finish = .doFinish) (g : Nat) :
    .op i g ∉ s.pool := fun hg => by
  obtain ⟨-, hidle, hb⟩ := (h.tracked i).begun g hg
  rcases hi with hi | hi
  · exact (h.not_begun hc hi).2 hb
  · cases (queued_of_idle (hc.op i) hidle).symm.trans hi

omit [DecidableEq κ] in
theorem Counted.reuse (h : Counted s) (hc : Calls s)
    (hi : (s.op i).start = .workStarted ∨ (s.op i).finish = .doFinish) :
    Counted { s with
      op := update s.op i {}
      stoppable := update s.stoppable i b
      gen := update s.gen i (s.gen i + 1) } := by
  refine { h with tracked := fun j => ?_, publishing := fun j hj => ?_ }
  · by_cases hj : j = i
    · subst hj
      dsimp only
      rw [Function.update_self, Function.update_self, (hc.done hi).1]
      refine .absent (h.absent hc hi) (fun _ hb => ?_) fun hidle => absurd rfl hidle
      rcases hb with hb | hb <;> cases hb
    · dsimp only
      rw [Function.update_of_ne hj, Function.update_of_ne hj]
      exact h.tracked j
  · obtain ⟨hidle, hqueued⟩ := h.publishing j hj
    have hji : j ≠ i := by
      rintro rfl
      rcases hi with hi | hi
      · exact hidle (h.not_begun hc hi).1
      · cases hqueued.symm.trans hi
    dsimp only
    rw [Function.update_of_ne hji]
    exact ⟨hidle, hqueued⟩

omit [DecidableEq κ] in
/-- One operation moves on together with its thread in `start()`. -/
theorem Counted.move (h : Counted s) {r : Party ι κ → RingPc ι} {m : Option (Party ι κ)}
    (hother : ∀ j, j ≠ i → r (.start j) = s.ring (.start j))
    (htracked : Tracked i o (r (.start i)) (s.gen i) s.pool)
    (hpublishing : s.consumer = .publishing i → o.publish ≠ .idle ∧ o.finish = .queued) :
    Counted { s with op := update s.op i o, ring := r, mtx := m } := by
  refine { h with tracked := fun j => ?_, publishing := fun j hj => ?_ }
  · by_cases hj : j = i
    · subst hj
      dsimp only
      rw [Function.update_self]
      exact htracked
    · dsimp only
      rw [Function.update_of_ne hj, hother j hj]
      exact h.tracked j
  · by_cases hji : j = i
    · subst hji
      dsimp only
      rw [Function.update_self]
      exact hpublishing hj
    · dsimp only
      rw [Function.update_of_ne hji]
      exact h.publishing j hj

/-- `start()` publishes an operation whose `do_start()` returns `completed` without an entry. -/
theorem Counted.completed (h : Counted s) (hc : Calls s) {m : Option (Party ι κ)}
    (hnone : ¬ (s.ring (.start i)).Obtained i)
    (hs : OperationState.step b (s.op i) (.doStartReturns .completed) = some o) :
    Counted { s with op := update s.op i o, ring := update s.ring (.start i) .idle, mtx := m } := by
  obtain ⟨⟨hstart, hidle⟩, rfl⟩ := enabled_iff.1 hs
  have hresult := (OperationState.invariants (hc.op i)).1.result
  rw [hstart] at hresult
  have hb : ¬ Begun i (s.op i) (s.ring (.start i)) := by
    rintro (hb | hb)
    · cases hresult.symm.trans hb
    · exact hnone hb
  refine h.move (fun j hj => Function.update_of_ne (fun he => hj (Party.start.inj he)) ..) ?_
    fun hp => absurd hidle (h.publishing i hp).1
  rw [Function.update_self]
  refine .absent (fun g hg => hb ((h.tracked i).begun g hg).2.2) (by rintro ⟨⟩) fun _ => .inl rfl

/-- `do_start()` returns `pending` with its entry, which the consumer may already have published. -/
theorem Counted.pending (h : Counted s) {m : Option (Party ι κ)}
    (hgot : (s.ring (.start i)).Obtained i)
    (hs : OperationState.step b (s.op i) (.doStartReturns .pending) = some o) :
    Counted { s with op := update s.op i o, ring := update s.ring (.start i) .idle, mtx := m } := by
  obtain ⟨hstart, rfl⟩ := enabled_iff.1 hs
  refine h.move (fun j hj => Function.update_of_ne (fun he => hj (Party.start.inj he)) ..) ?_
    (h.publishing i)
  have hi := h.tracked i
  exact {
    once := fun hidle _ => hi.once hidle (.inr hgot)
    begun := fun g hg => ⟨(hi.begun g hg).1, (hi.begun g hg).2.1, .inl rfl⟩
    early := fun _ => .inr (.inl rfl) }

omit [DecidableEq ι] [DecidableEq κ] in
/-- A thread in `do_start()` works for the operation that it starts. -/
theorem Calls.op_start (h : Calls s) (hp : (s.ring p).job = some (.op i)) :
    p = .start i ∧ (s.op i).start = .inDoStart := by
  cases p with
  | start j =>
    rw [h.start j] at hp
    cases hst : (s.op j).start <;> rw [hst] at hp <;> cases hp
    exact ⟨rfl, hst⟩
  | cancel j =>
    rw [h.cancel j] at hp
    cases hst : (s.op j).cancel <;> rw [hst] at hp <;> cases hp
  | thread k => exact absurd hp (h.thread k i).1
  | consumer =>
    rw [h.consumer] at hp
    cases hp

omit [DecidableEq ι] in
theorem entry_op {job : Job ι} (h : job.entry gen = .op i g) : job = .op i ∧ g = gen i := by
  cases job <;> cases h
  exact ⟨rfl, rfl⟩

omit [DecidableEq ι] in
theorem obtained_obtained {job : Job ι} : job.obtained.Obtained i ↔ job = .op i := by
  cases job <;> exact .rfl

/-- The thread that holds the lock obtains the entry of its operation, which has none. -/
theorem Counted.entry (h : Counted s) (hc : Calls s) (hp : s.ring p = .get job retry) :
    Counted { s with
      ring := update s.ring p job.obtained
      sq := s.sq ++ [job.entry s.gen]
      pending := s.pending + 1 } := by
  refine { h with tracked := fun j => ?_ }
  have hi := h.tracked j
  have hpool : ∀ e, (s.sq ++ [job.entry s.gen] ++ s.flight ++ s.cq ++ s.ready).count e =
      s.pool.count e + [job.entry s.gen].count e := fun e => by
    simp only [State.pool, List.count_append]
    omega
  by_cases hj : job = .op j
  · subst hj
    obtain ⟨rfl, hstart⟩ := hc.op_start (i := j) (by rw [hp]; rfl)
    have hresult := (OperationState.invariants (hc.op j)).1.result
    rw [hstart] at hresult
    have hnot : ¬ Begun j (s.op j) (s.ring (.start j)) := by
      rw [hp]
      rintro (hb | hb)
      · cases hresult.symm.trans hb
      · exact hb
    have hidle : (s.op j).publish = .idle := by
      by_contra hidle
      rcases hi.early hidle with he | he
      · cases hresult.symm.trans he
      · exact hnot he
    have hnone : ∀ g, s.pool.count (.op j g) = 0 := fun g =>
      List.count_eq_zero.2 fun hg => hnot (hi.begun g hg).2.2
    dsimp only
    rw [Function.update_self]
    refine ⟨fun _ _ => ?_, fun g hg => ?_, fun hne => absurd hidle hne⟩
    · refine (hpool _).trans ?_
      rw [hnone, Nat.zero_add]
      exact List.count_singleton_self ..
    · have hcount := List.count_pos_iff.2 hg
      rw [State.pool, hpool, hnone, Nat.zero_add, List.count_pos_iff, List.mem_singleton] at hcount
      exact ⟨(entry_op hcount.symm).2, hidle, .inr rfl⟩
  · refine hi.congr (fun g => ?_) .rfl rfl ?_
    · refine (hpool _).trans ?_
      rw [List.count_eq_zero.2 fun hg => hj (entry_op (List.mem_singleton.1 hg).symm).1]
      rfl
    · dsimp only
      by_cases hjp : .start j = p
      · subst hjp
        rw [Function.update_self, hp, obtained_obtained]
        exact iff_of_false hj (by nofun)
      · rw [Function.update_of_ne hjp]

omit [DecidableEq κ] in
/-- The consumer publishes the operation of an entry, which leaves the pool. -/
theorem Counted.publish (h : Counted s) (hc : Calls s) (hready : s.ready = .op i g :: es)
    (hs : OperationState.step b (s.op i) (.publish .backend) = some o) :
    Counted { s with op := update s.op i o, ready := es, consumer := .publishing i } := by
  obtain ⟨⟨hidle, -⟩, rfl⟩ := enabled_iff.1 hs
  have hqueued := queued_of_idle (hc.op i) hidle
  have hpool : ∀ e, s.pool.count e =
      (s.sq ++ s.flight ++ s.cq ++ es).count e + [Entry.op i g].count e := fun e => by
    simp only [State.pool, List.count_append, hready, List.count_cons, List.count_nil]
    omega
  refine ⟨fun j => ?_, fun e he => h.ready e (by rw [hready]; exact .tail _ he), fun j hj => ?_⟩
  · have hi := h.tracked j
    by_cases hji : j = i
    · subst hji
      have hmem : .op j g ∈ s.pool := by
        rw [State.pool, hready]
        exact List.mem_append_right _ (.head _)
      obtain ⟨rfl, -, hb⟩ := hi.begun g hmem
      have hone := hi.once hidle hb
      rw [hpool, List.count_singleton_self] at hone
      dsimp only
      rw [Function.update_self]
      refine .absent (fun g' hg' => ?_) (by rintro ⟨⟩) fun _ => .inr hb
      have hcount : 0 < (s.sq ++ s.flight ++ s.cq ++ es).count (.op j g') :=
        List.count_pos_iff.2 hg'
      obtain ⟨rfl, -⟩ := hi.begun g' <| List.count_pos_iff.1 <| by
        rw [hpool]
        exact Nat.add_pos_left hcount _
      omega
    · dsimp only
      rw [Function.update_of_ne hji]
      refine hi.congr (fun g' => ?_) .rfl rfl .rfl
      have hzero : [Entry.op i g].count (.op j g') = 0 := List.count_eq_zero.2 fun hg => by
        cases List.mem_singleton.1 hg
        exact hji rfl
      rw [hpool, hzero]
      rfl
  · obtain rfl : i = j := ConsumerPc.publishing.inj hj
    dsimp only
    rw [Function.update_self]
    exact ⟨by rintro ⟨⟩, hqueued⟩

omit [DecidableEq κ] in
/-- The consumer takes completed entries, of which it keeps those of operations. -/
theorem Counted.take (h : Counted s) (hcq : s.cq = es ++ es') (hc : ∀ i, c ≠ .publishing i) :
    Counted { s with cq := es', ready := s.ready ++ es.filter Entry.isOp, consumer := c } := by
  refine h.keep (fun i g => ?_) rfl (fun _ => ⟨.rfl, rfl⟩) (fun _ => .rfl) (fun e he => ?_)
    fun i hi => absurd hi (hc i)
  · have hkeep : (es.filter Entry.isOp).count (.op i g) = es.count (.op i g) :=
      List.count_filter rfl
    simp only [State.pool, List.count_append, hkeep, hcq]
    omega
  · rcases List.mem_append.1 he with he | he
    · exact h.ready e he
    · exact (List.mem_filter.1 he).2

omit [DecidableEq κ] in
/-- The kernel completes an entry. -/
theorem Counted.kernel (h : Counted s) (he : e ∈ s.flight) :
    Counted { s with flight := s.flight.erase e, cq := s.cq ++ [e] } := by
  refine h.keep (fun i g => ?_) rfl (fun _ => ⟨.rfl, rfl⟩) (fun _ => .rfl) h.ready h.publishing
  have hperm := (List.perm_cons_erase he).count_eq (.op i g)
  simp only [State.pool, List.count_append, hperm, List.count_cons, List.count_nil]
  omega

omit [DecidableEq ι] in
theorem not_obtained {job : Job ι} (h : job ≠ .op i) : ¬ (RingPc.unlock job r).Obtained i := by
  cases r with
  | completed => exact id
  | pending => exact h

/-- The call that a thread was in under the lock returns. -/
theorem Counted.returns (h : Counted s) (hc : Calls s) (hp : s.ring p = .unlock job r)
    (hs : s.returns p job r = some t) : Counted { t.goto p .idle with mtx := none } := by
  have hleave : (∀ j, job ≠ .op j) → Counted { s.goto p .idle with mtx := none } := fun hjob => by
    have hgoto : Counted (s.goto p .idle) :=
      h.goto hp fun j => iff_of_false id (not_obtained (hjob j))
    exact { hgoto with }
  cases p with
  | start i =>
    cases job with
    | op j =>
      obtain ⟨o, ho, rfl⟩ := Option.map_eq_some_iff.1 hs
      obtain ⟨hi, -⟩ := hc.op_start (i := j) (by rw [hp]; rfl)
      obtain rfl : i = j := Party.start.inj hi
      cases r with
      | completed => exact h.completed hc (by rw [hp]; exact id) ho
      | pending => exact h.pending (by rw [hp]; rfl) ho
    | _ =>
      obtain ⟨o, ho, rfl⟩ := Option.map_eq_some_iff.1 hs
      obtain ⟨-, rfl⟩ := enabled_iff.1 ho
      exact (hleave nofun).op_step rfl .rfl fun _ => rfl
  | cancel i =>
    obtain ⟨o, ho, rfl⟩ := Option.map_eq_some_iff.1 hs
    obtain ⟨-, rfl⟩ := enabled_iff.1 ho
    refine (hleave fun j hj => ?_).op_step rfl .rfl fun _ => rfl
    cases (hc.op_start (i := j) (by rw [hp, hj]; rfl)).1
  | thread k =>
    obtain rfl : s = t := by
      cases job <;> exact Option.some.inj hs
    refine hleave fun j hj => ?_
    cases (hc.op_start (i := j) (by rw [hp, hj]; rfl)).1
  | consumer =>
    rw [hc.consumer] at hp
    cases hp

/-- `request_cancel()` may enter `do_cancel()`. -/
theorem Counted.test (h : Counted s) (hs : step entries batch s (.test i spurious) = some t) :
    Counted t := by
  obtain ⟨u, hu, rfl⟩ := Option.map_eq_some_iff.1 hs
  obtain ⟨o, ho, rfl⟩ := Option.map_eq_some_iff.1 hu
  have hframe : o.result = (s.op i).result ∧ o.publish = (s.op i).publish ∧
      o.finish = (s.op i).finish := by
    simp only [OperationState.step] at ho
    (repeat' split at ho) <;> cases ho <;> exact ⟨rfl, rfl, rfl⟩
  obtain ⟨hresult, hpublish, hfinish⟩ := hframe
  have hmoved := h.op_step hresult (by rw [hpublish]) fun _ => hfinish
  split
  · refine hmoved.keep (fun _ _ => rfl) rfl (fun _ => ⟨.rfl, rfl⟩) (fun j => ?_) hmoved.ready
      hmoved.publishing
    rw [State.goto_of_ne _ start_ne_cancel]
  · exact hmoved

theorem Counted.step (h : Counted s) (hc : Calls s) (hr : Ring s)
    (hs : step entries batch s a = some t) : Counted t := by
  cases a with
  | reuse i b =>
    obtain ⟨hp, rfl⟩ := enabled_iff.1 hs
    exact h.reuse hc hp
  | op i a =>
    obtain ⟨hf, hs⟩ := Option.ite_none_right_eq_some.1 hs
    obtain ⟨o, ho, rfl⟩ := Option.map_eq_some_iff.1 hs
    exact h.op_step (framed_of_step (hc.op i) (.inl hf) ho i).result (publish_of_step (.inl hf) ho)
      fun hp => (finish_of_step hf ho (h.publishing i hp).2).trans (h.publishing i hp).2.symm
  | doStart i | deferredCancel i =>
    obtain ⟨u, hu, rfl⟩ := Option.map_eq_some_iff.1 hs
    obtain ⟨o, ho, rfl⟩ := Option.map_eq_some_iff.1 hu
    obtain ⟨hp, rfl⟩ := enabled_iff.1 ho
    have hidle : s.ring (.start i) = .idle := idle_of_job ((hc.start i).trans (by rw [hp]; rfl))
    refine Counted.op_step (h.goto hidle fun _ => ?_) rfl .rfl fun _ => rfl
    exact .rfl
  | refuse i =>
    simp only [Uring.step] at hs
    split at hs
    · rename_i j hp
      obtain ⟨u, hu, rfl⟩ := Option.map_eq_some_iff.1 hs
      obtain ⟨o, ho, rfl⟩ := Option.map_eq_some_iff.1 hu
      exact h.completed hc (by rw [hp]; exact id) ho
    · cases hs
  | test i spurious => exact h.test hs
  | cancelFd k | interrupt k =>
    simp only [Uring.step] at hs
    split at hs
    · rename_i hp
      cases hs
      exact h.goto hp fun i => .rfl
    · cases hs
  | lock p =>
    simp only [Uring.step] at hs
    split at hs
    · rename_i job hp
      obtain ⟨-, rfl⟩ := enabled_iff.1 hs
      have hgoto : Counted (s.goto p (.get job 3)) := h.goto hp fun i => .rfl
      exact { hgoto with }
    · cases hs
  | get p =>
    simp only [Uring.step] at hs
    split at hs
    · rename_i job retry hp
      split at hs
      · cases hs
        exact h.entry hc hp
      · split at hs
        · cases hs
          exact h.goto hp fun i => .rfl
        · split at hs
          · cases hs
            exact h.goto hp fun i => .rfl
          · cases hs
    · cases hs
  | resubmit p =>
    simp only [Uring.step] at hs
    split at hs
    · rename_i job retry hp
      cases hs
      have hpc : s.submitSqes.ring p = .resubmit job retry := by rw [s.submitSqes_ring, hp]
      exact (h.submitSqes hr).goto hpc fun i => .rfl
    · cases hs
  | load p value =>
    simp only [Uring.step] at hs
    split at hs
    · rename_i job hp
      obtain ⟨-, rfl⟩ := enabled_iff.1 hs
      exact h.goto hp fun i => .rfl
    · cases hs
  | testPulling p =>
    simp only [Uring.step] at hs
    split at hs
    · rename_i job value hp
      cases hs
      refine h.goto hp fun i => ?_
      split <;> exact .rfl
    · cases hs
  | submit p =>
    simp only [Uring.step] at hs
    split at hs
    · rename_i job hp
      cases hs
      have hpc : s.submitSqes.ring p = .submit job := by rw [s.submitSqes_ring, hp]
      exact (h.submitSqes hr).goto hpc fun i => .rfl
    · cases hs
  | unlock p =>
    simp only [Uring.step] at hs
    split at hs
    · rename_i job r hp
      obtain ⟨u, hu, rfl⟩ := Option.map_eq_some_iff.1 hs
      exact h.returns hc hp hu
    · cases hs
  | kernel e =>
    obtain ⟨he, rfl⟩ := enabled_iff.1 hs
    exact h.kernel he
  | doOne | pull | consumerUnlock | fail | clear | leave | empty =>
    simp only [Uring.step] at hs
    split at hs <;> cases hs <;> exact { h.consume (by rintro _ ⟨⟩) with }
  | finished | published | consumerLock =>
    simp only [Uring.step] at hs
    split at hs
    · obtain ⟨-, rfl⟩ := enabled_iff.1 hs
      exact { h.consume (by rintro _ ⟨⟩) with }
    · cases hs
  | work zero | recheck zero =>
    simp only [Uring.step] at hs
    split at hs <;> cases hs
    cases zero <;> exact h.consume (by rintro _ ⟨⟩)
  | dequeue i =>
    simp only [Uring.step] at hs
    split at hs
    · rename_i hc'
      obtain ⟨u, hu, rfl⟩ := Option.map_eq_some_iff.1 hs
      obtain ⟨o, ho, rfl⟩ := Option.map_eq_some_iff.1 hu
      exact (h.op_step (framed_of_step (hc.op i) (.inr (.inl rfl)) ho i).result
        (publish_of_step (.inr rfl) ho) (by rw [hc']; rintro ⟨⟩)).consume (by rintro _ ⟨⟩)
    · rename_i hc'
      obtain ⟨u, hu, rfl⟩ := Option.map_eq_some_iff.1 hs
      obtain ⟨o, ho, rfl⟩ := Option.map_eq_some_iff.1 hu
      exact (h.op_step (framed_of_step (hc.op i) (.inr (.inl rfl)) ho i).result
        (publish_of_step (.inr rfl) ho) (by rw [hc']; rintro ⟨⟩)).consume (by rintro _ ⟨⟩)
    · cases hs
  | consumerSubmit =>
    simp only [Uring.step] at hs
    split at hs <;> cases hs
    exact (h.submitSqes hr).consume (by rintro _ ⟨⟩)
  | wait timeout =>
    simp only [Uring.step] at hs
    split at hs
    · split at hs
      · cases hs
        exact h.consume (by rintro _ ⟨⟩)
      · split at hs
        · rename_i e cq hcq
          cases hs
          exact h.take (show s.cq = [e] ++ cq from hcq) (by rintro _ ⟨⟩)
        · cases hs
    · cases hs
  | peek =>
    simp only [Uring.step] at hs
    split at hs
    · rename_i hc
      split at hs
      · cases hs
        exact h.consume (by rintro _ ⟨⟩)
      · cases hs
        exact h.take (List.take_append_drop 8 s.cq).symm (by rw [hc]; rintro _ ⟨⟩)
    · cases hs
  | publish =>
    simp only [Uring.step] at hs
    split at hs
    · split at hs
      · cases hs
        exact h.consume (by split <;> rintro _ ⟨⟩)
      · obtain ⟨u, hu, rfl⟩ := Option.map_eq_some_iff.1 hs
        obtain ⟨o, ho, rfl⟩ := Option.map_eq_some_iff.1 hu
        exact h.publish hc ‹_› ho
      · cases hs
    · cases hs

theorem counted (h : (system κ entries batch stoppable).Reachable s) :
    Calls s ∧ Counted s := by
  refine System.Invariant.reachable (I := fun s => Calls s ∧ Counted s)
    ⟨⟨.init stoppable, .init stoppable⟩, fun s a t hreach ⟨hc, hcount⟩ hs => ?_⟩ h
  exact ⟨(hc.step hs).2, hcount.step hc (invariants hreach).2.1 hs⟩

omit [DecidableEq ι] [DecidableEq κ] in
/-- The backend holds an operation that has begun, and may publish it. -/
theorem Calls.mayPublish (h : Calls s) (hb : Begun i (s.op i) (s.ring (.start i))) :
    (s.op i).MayPublish .backend = true := by
  have hresult := (OperationState.invariants (h.op i)).1.result
  rcases hb with hb | hb
  · cases hst : (s.op i).start <;> rw [hst, hb] at hresult <;>
      simp_all [OperationState.State.MayPublish, OperationState.StartPc.Result]
  · have hjob : (s.ring (.start i)).job = some (.op i) := by
      cases hpc : s.ring (.start i) with
      | load | test | submit =>
        rw [hpc] at hb
        exact congrArg some hb
      | unlock job r =>
        rw [hpc] at hb
        cases r with
        | completed => exact hb.elim
        | pending => exact congrArg some hb
      | _ =>
        rw [hpc] at hb
        exact hb.elim
    have hst := (h.op_start hjob).2
    rw [hst] at hresult
    simp_all [OperationState.State.MayPublish, OperationState.StartPc.Result]

/-- The consumer that publishes what it has taken always has a next step. -/
theorem Counted.publish_enabled (h : Counted s) (hc : Calls s) (hp : s.consumer = .publish) :
    ∃ t, Uring.step entries batch s .publish = some t := by
  simp only [Uring.step, hp]
  split
  · exact ⟨_, rfl⟩
  · rename_i i g ready hready
    obtain ⟨-, hidle, hb⟩ := (h.tracked i).begun g <| by
      rw [State.pool, hready]
      exact List.mem_append_right _ (.head _)
    have hs : OperationState.step (s.stoppable i) (s.op i) (.publish .backend) = some _ :=
      if_pos ⟨hidle, hc.mayPublish hb⟩
    rw [State.opStep, hs]
    exact ⟨_, rfl⟩
  · rename_i e ready hop hready
    have he := h.ready e (by rw [hready]; exact .head _)
    cases e with
    | op i g => exact absurd rfl (hop i g)
    | _ => cases he

/-- The calls of `publish()` by the consumer return. -/
theorem Counted.publishing_enabled (h : Counted s) (hp : s.consumer = .publishing i) :
    ∃ a t, Uring.step entries batch s a = some t ∧ (a = .published ∨ ∃ b, a = .op i b) := by
  have hop : ∀ b, free b = true → OperationState.step (s.stoppable i) (s.op i) b ≠ none →
      ∃ a t, Uring.step entries batch s a = some t ∧ (a = .published ∨ ∃ b, a = .op i b) := by
    intro b hf hs
    obtain ⟨o, ho⟩ := Option.ne_none_iff_exists'.1 hs
    refine ⟨.op i b, { s with op := update s.op i o }, ?_, .inr ⟨b, rfl⟩⟩
    simp only [Uring.step, hf, if_true, State.opStep, ho]
    rfl
  obtain ⟨hidle, -⟩ := h.publishing i hp
  cases hpc : (s.op i).publish with
  | idle => exact absurd hpc hidle
  | exchange => exact hop .exchange rfl (by simp [OperationState.step, hpc])
  | test previous => exact hop .testPrevious rfl (by simp [OperationState.step, hpc])
  | post => exact hop .publishPost rfl (by simp [OperationState.step, hpc])
  | wakeup => exact hop .publishWakeup rfl (by simp [OperationState.step, hpc])
  | returned =>
    refine ⟨.published, { s with consumer := .publish }, ?_, .inl rfl⟩
    simp only [Uring.step, hp, hpc, if_true]

/-- Every operation that has begun and is not published has exactly one entry, with its number, and
nothing else has one: no entry is lost, published twice or left behind for another operation at the
address. What the consumer takes it can publish. -/
theorem completions (h : (system κ entries batch stoppable).Reachable s) :
    (∀ i, (s.op i).publish = .idle → Begun i (s.op i) (s.ring (.start i)) →
      s.pool.count (.op i (s.gen i)) = 1) ∧
    (∀ i g, .op i g ∈ s.pool → g = s.gen i ∧ (s.op i).publish = .idle ∧
      (s.op i).start ≠ .workStarted ∧ (s.op i).finish = .queued) ∧
    (s.consumer = .publish → ∃ t, step entries batch s .publish = some t) ∧
    (∀ i, s.consumer = .publishing i → ∃ a t, step entries batch s a = some t ∧
      (a = .published ∨ ∃ b, a = .op i b)) := by
  obtain ⟨hc, hcount⟩ := counted h
  refine ⟨fun i => (hcount.tracked i).once, fun i g hg => ?_, hcount.publish_enabled hc,
    fun i => hcount.publishing_enabled⟩
  obtain ⟨hgen, hidle, hb⟩ := (hcount.tracked i).begun g hg
  exact ⟨hgen, hidle, fun hstart => (hcount.not_begun hc hstart).2 hb,
    queued_of_idle (hc.op i) hidle⟩

/-- The kernel completes an operation before its `do_start()` has returned. -/
def earlyRun : List (Act Unit Unit) :=
  [.op () .workStarted, .op () (.emplace false), .doStart (), .lock (.start ()), .get (.start ()),
    .load (.start ()) true, .testPulling (.start ()), .submit (.start ()), .kernel (.op () 0),
    .doOne true, .work false, .empty, .pull, .recheck false]

theorem completions_early : ∃ s, (system Unit 8 4 fun _ : Unit => true).exec
      (system Unit 8 4 fun _ : Unit => true).init earlyRun = some s ∧
    (s.op ()).result = none ∧ s.pool.count (.op () 0) = 1 := by
  refine ⟨_, rfl, rfl, ?_⟩
  exact (completions ((system Unit 8 4 fun _ : Unit => true).reachable_exec earlyRun rfl)).1 ()
    rfl (.inr rfl)

end Coio.Uring
