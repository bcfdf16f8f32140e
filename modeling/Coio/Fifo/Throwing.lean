import Coio.Fifo.Safety

namespace Coio.Fifo
open Transition Tally
set_option autoImplicit true

/-- The steps of a fifo whose elements may throw when they are made. -/
inductive ThrowAct (α : Type u) (ι : Type v) (κ : Type w)
  | act (a : Act α ι κ)
  | emplaceThrows (p : Party ι κ)

section
variable [DecidableEq ι] [DecidableEq κ]

def throwStep (limit : Nat) (s : State α ι κ) : ThrowAct α ι κ → Option (State α ι κ)
  | .act a => step limit s a
  -- `guard` unlocks, and the exception leaves `try_emplace()` or completes the operation with
  -- set-error
  | .emplaceThrows p => match s.pc p with
    | .update (.push _) => some { s.fail p with mtx := none }
    | _ => none

def throwSystem (α : Type u) (ι : Type v) (κ : Type w) [DecidableEq ι] [DecidableEq κ]
    (limit maxSize : Nat) (initial : List α) : System (State α ι κ) (ThrowAct α ι κ) where
  init := (system α ι κ limit maxSize initial).init
  step := throwStep limit

end

/-- The pushes of a run that fail by exception. -/
def throws : List (ThrowAct α ι κ) → Nat
  | [] => 0
  | .act _ :: as => throws as
  | .emplaceThrows _ :: as => throws as + 1

/-- The stored elements, the free slots and the available items are the same. -/
structure State.Same (s t : State α ι κ) : Prop where
  stored : t.underlying = s.underlying
  free : (t.sema .push).counter = (s.sema .push).counter
  available : (t.sema .pop).counter = (s.sema .pop).counter

/-- A `try_emplace()` from which no other operation takes a turn; `free` and `available` are what it
reads from the semaphores. -/
def pushRun (k : κ) (value : α) (free available : Nat) : List (Act α ι κ) :=
  [.tryStart k (.push value), .sema .push (.thread (.thread k) .tryLoad),
    .sema .push (.thread (.thread k) (.tryCas free false)), .tryResult .push k true,
    .lock (.thread k), .update (.thread k), .unlock (.thread k), .release (.thread k),
    .sema .pop (.thread (.thread k) .lock), .sema .pop (.thread (.thread k) .pop),
    .sema .pop (.thread (.thread k) .load), .sema .pop (.thread (.thread k) (.cas available false)),
    .released (.thread k)]

variable [DecidableEq ι] [DecidableEq κ]

def State.TryPushes (limit : Nat) (s : State α ι κ) (k : κ) (value : α) (t : State α ι κ) : Prop :=
  System.exec ⟨s, step limit⟩ s
    (pushRun k value (s.sema .push).counter (s.sema .pop).counter) = some t

/-- Exactly this many further pushes succeed. -/
inductive State.Accepts (limit : Nat) (k : κ) (value : α) : State α ι κ → Nat → Prop
  | full : s.TryFails limit k value → Accepts limit k value s 0
  | push : s.TryPushes limit k value t → Accepts limit k value t m →
      Accepts limit k value s (m + 1)

variable {limit : Nat} {s t : State α ι κ} {v : View}

attribute [local grind =] Function.update_apply Pc.acquiring Party.call Pc.Locked Pc.taken Pc.owed
  Pc.held Pc.busy Job.kind State.movedBy

/-- A push that throws has taken a permit and gives it to nobody. -/
theorem Inv.emplaceThrows (h : Inv limit n l s v)
    (hs : throwStep limit s (.emplaceThrows p) = some t) :
    ∃ w, w.lost = Function.update v.lost .push (v.lost .push + 1) ∧ Inv limit n l t w := by
  simp only [throwStep] at hs
  split at hs
  · rename_i x hp
    obtain rfl := Option.some.inj hs
    have htaken := (h.taken .push).le p
    have hm := (h.mtx p).2 (by simp [hp, Pc.Locked])
    simp only [hp, Pc.taken, Job.kind, if_true] at htaken
    clear hs
    simp only [State.fail, State.goto]
    refine ⟨{ v with
      taken := Function.update v.taken .push (v.taken .push - 1)
      lost := Function.update v.lost .push (v.lost .push + 1) }, rfl, { h with
        busy := by have := h.busy; grind
        call := by have := h.call; grind
        mtx := by have := h.mtx; grind
        taken := fun e => (h.taken e).update (by grind)
        owed := fun e => (h.owed e).update (by grind)
        delivered := by have := h.delivered; grind
        results := by have := h.results; grind
        starts := by have := h.starts; grind }⟩
  · cases hs

theorem Inv.throwStep (h : Inv limit n l s v) (hs : Fifo.throwStep limit s a = some t) :
    ∃ w, w.lost .push = v.lost .push + throws [a] ∧ w.lost .pop = v.lost .pop ∧
      Inv limit n l t w := by
  cases a with
  | act a =>
    obtain ⟨w, hw, hi⟩ := h.step hs
    exact ⟨w, by rw [hw]; rfl, by rw [hw], hi⟩
  | emplaceThrows p =>
    obtain ⟨w, hw, hi⟩ := h.emplaceThrows hs
    exact ⟨w, by rw [hw, Function.update_self]; rfl,
      by rw [hw, Function.update_of_ne (by decide)], hi⟩

/-- The permits that a run loses are those of the pushes that threw. -/
theorem Inv.throwRun (h : Inv limit n l s v)
    (he : (throwSystem α ι κ limit n l).exec s as = some t) :
    ∃ w, w.lost .push = v.lost .push + throws as ∧ w.lost .pop = v.lost .pop ∧
      Inv limit n l t w := by
  induction as generalizing s v with
  | nil =>
    cases he
    exact ⟨v, rfl, rfl, h⟩
  | cons a as ih =>
    obtain ⟨r, hr, he⟩ := Option.bind_eq_some_iff.1 he
    obtain ⟨u, hpush, hpop, hu⟩ := h.throwStep hr
    obtain ⟨w, hpush', hpop', hw⟩ := ih hu he
    refine ⟨w, ?_, hpop'.trans hpop, hw⟩
    cases a with
    | act a => exact hpush'.trans (by rw [hpush]; rfl)
    | emplaceThrows p =>
      rw [hpush', hpush]
      simp only [throws]
      omega

theorem Inv.mtx_of_quiet (h : Inv limit n l s v) (hq : s.Quiet) : s.mtx = none := by
  cases hm : s.mtx with
  | none => rfl
  | some p =>
    have hp := (h.mtx p).1 hm
    rw [hq p] at hp
    cases hp

/-- With no operation in progress nobody waits for a permit or holds the lock of a semaphore. -/
theorem Inv.sema_of_quiet (h : Inv limit n l s v) (hq : s.Quiet) (d : Kind) :
    (s.sema d).mtx = none ∧ (s.sema d).waiters.pop = ((s.sema d).waiters, none) := by
  obtain ⟨w, hw⟩ := h.sema d
  have hstart : ∀ i, (s.sema d).start i = .idle := fun i => by
    have hb := h.busy d i
    rw [hq] at hb
    simpa [AsyncSemaphore.State.callers, Pc.acquiring] using hb
  have hthread : ∀ p, (s.sema d).thread p = .idle := fun p =>
    AsyncSemaphore.ThreadPc.idle_of_call (h.call_of_quiet hq d p)
  constructor
  · cases hm : (s.sema d).mtx with
    | none => rfl
    | some p =>
      cases p with
      | start i => simpa [hstart, AsyncSemaphore.StartPc.Locked] using (hw.mtx_start i).1 hm
      | callback i =>
        have hc := hw.bare i (by rw [hstart]; trivial)
        simpa [hc, AsyncSemaphore.CallbackPc.Locked] using (hw.mtx_callback i).1 hm
      | thread k => simpa [hthread, AsyncSemaphore.ThreadPc.Locked] using (hw.mtx_thread k).1 hm
  · have hnil : w.queue = [] := List.eq_nil_iff_forall_not_mem.2 fun i hi => by
      simpa [hstart, AsyncSemaphore.StartPc.InQueue] using (hw.queued i).1 hi
    exact WaitingList.pop_nil (hnil ▸ hw.list)

omit [DecidableEq ι] [DecidableEq κ] in
theorem pushRun_eq (k : κ) (x : α) (free available : Nat) :
    (pushRun k x free available : List (Act α ι κ)) =
      [.tryStart k (.push x), .sema .push (.thread (.thread k) .tryLoad),
        .sema .push (.thread (.thread k) (.tryCas free false)), .tryResult .push k true] ++
      ([.lock (.thread k), .update (.thread k), .unlock (.thread k)] ++
        [.release (.thread k), .sema .pop (.thread (.thread k) .lock),
          .sema .pop (.thread (.thread k) .pop), .sema .pop (.thread (.thread k) .load),
          .sema .pop (.thread (.thread k) (.cas available false)), .released (.thread k)]) := rfl

/-- A lone `try_emplace()` that reads a free slot takes a permit. -/
theorem acquires (limit : Nat) (hp : s.pc (.thread k) = .idle)
    (hk : (s.sema .push).thread (.thread k) = .idle) (hc : 0 < (s.sema .push).counter) (x : α) :
    ∃ t, System.exec ⟨s, step limit⟩ s
        [.tryStart k (.push x), .sema .push (.thread (.thread k) .tryLoad),
          .sema .push (.thread (.thread k) (.tryCas (s.sema .push).counter false)),
          .tryResult .push k true] = some t ∧
      t.pc = Function.update s.pc (.thread k) (.lock (.push x)) ∧ t.mtx = s.mtx ∧
      t.sema .pop = s.sema .pop ∧ (t.sema .push).counter + 1 = (s.sema .push).counter := by
  simp only [System.exec, step, hp, Job.kind, State.semaStep, AsyncSemaphore.step,
    AsyncSemaphore.threadStep, hk]
  simp [State.begin, State.goto, AsyncSemaphore.Act.internal, hc.ne', Pc.granted]
  exact Nat.sub_add_cancel hc

/-- The element is stored under the lock. -/
theorem emplaces (limit : Nat) (hp : s.pc (.thread k) = .lock (.push x)) (hm : s.mtx = none) :
    ∃ t, System.exec ⟨r, step limit⟩ s
        [.lock (.thread k), .update (.thread k), .unlock (.thread k)] = some t ∧
      t.pc = Function.update s.pc (.thread k) (.release .push x) ∧ t.sema = s.sema := by
  simp only [System.exec, step, hp, hm]
  simp [State.goto, State.move]

/-- The permit of the new element is released while nobody waits for one. -/
theorem releases (hp : s.pc (.thread k) = .release .push x)
    (hk : (s.sema .pop).thread (.thread k) = .idle) (hm : (s.sema .pop).mtx = none)
    (hw : (s.sema .pop).waiters.pop = ((s.sema .pop).waiters, none))
    (hl : (s.sema .pop).counter < limit) :
    ∃ t, System.exec ⟨r, step limit⟩ s
        [.release (.thread k), .sema .pop (.thread (.thread k) .lock),
          .sema .pop (.thread (.thread k) .pop), .sema .pop (.thread (.thread k) .load),
          .sema .pop (.thread (.thread k) (.cas (s.sema .pop).counter false)),
          .released (.thread k)] = some t ∧
      t.pc = Function.update s.pc (.thread k) .idle ∧ t.sema .push = s.sema .push := by
  simp only [System.exec, step, hp, Kind.other, State.semaStep, AsyncSemaphore.step,
    AsyncSemaphore.threadStep, hk]
  simp [State.goto, AsyncSemaphore.Act.internal, hm, hw, hl.ne, State.succeed]

theorem tryPushes_of_quiet (h : Inv limit n l s v) (hq : s.Quiet)
    (hc : 0 < (s.sema .push).counter) (hl : (s.sema .pop).counter < limit) (k : κ) (x : α) :
    ∃ t, s.TryPushes limit k x t ∧ t.Quiet ∧
      (t.sema .push).counter + 1 = (s.sema .push).counter := by
  have hpop := AsyncSemaphore.ThreadPc.idle_of_call (h.call_of_quiet hq .pop (.thread k))
  obtain ⟨hmtx, hw⟩ := h.sema_of_quiet hq .pop
  obtain ⟨t₁, h₁, hpc₁, hm₁, hpop₁, hc₁⟩ :=
    acquires limit (hq (.thread k)) (h.thread_idle hq (.thread k)) hc x
  obtain ⟨t₂, h₂, hpc₂, hsema₂⟩ := emplaces (r := s) limit
    (by rw [hpc₁, Function.update_self] : t₁.pc (.thread k) = .lock (.push x))
    (hm₁.trans (h.mtx_of_quiet hq))
  rw [← hpop₁, ← hsema₂] at hpop hmtx hw hl
  obtain ⟨t, h₃, hpc, hpush⟩ := releases (r := s)
    (by rw [hpc₂, Function.update_self] : t₂.pc (.thread k) = .release .push x) hpop hmtx hw hl
  refine ⟨t, ?_, fun p => ?_, ?_⟩
  · rw [State.TryPushes, pushRun_eq, System.exec_append, h₁, Option.bind_some, System.exec_append,
      h₂, Option.bind_some, ← hpop₁, ← hsema₂]
    exact h₃
  · rw [hpc, hpc₂, hpc₁]
    by_cases hpk : p = .thread k
    · rw [hpk]
      exact Function.update_self ..
    · rw [Function.update_of_ne hpk, Function.update_of_ne hpk, Function.update_of_ne hpk]
      exact hq p
  · rw [hpush, hsema₂]
    exact hc₁

theorem not_tryPushes (hk : (s.sema .push).thread (.thread k) = .idle)
    (hp : s.pc (.thread k) = .idle) (hc : (s.sema .push).counter = 0) :
    ¬ s.TryPushes limit k x t := by
  have hnone : System.exec ⟨s, step limit⟩ s
      [.tryStart k (.push x), .sema .push (.thread (.thread k) .tryLoad),
        .sema .push (.thread (.thread k) (.tryCas (s.sema .push).counter false)),
        .tryResult .push k true] = none := by
    simp [System.exec, step, hp, Job.kind, State.semaStep, AsyncSemaphore.step,
      AsyncSemaphore.threadStep, hk, State.begin, State.goto, AsyncSemaphore.Act.internal, hc]
  rw [State.TryPushes, pushRun_eq, System.exec_append, hnone]
  rintro ⟨⟩

/-- A run whose elements do not throw loses no permit. -/
theorem Inv.run (h : Inv limit n l s v) (he : System.exec ⟨r, Fifo.step limit⟩ s as = some t) :
    ∃ w, w.lost = v.lost ∧ Inv limit n l t w := by
  induction as generalizing s v with
  | nil =>
    cases he
    exact ⟨v, rfl, h⟩
  | cons a as ih =>
    obtain ⟨u, hu, he⟩ := Option.bind_eq_some_iff.1 he
    obtain ⟨x, hx, hi⟩ := h.step hu
    obtain ⟨w, hw, hi⟩ := ih hi he
    exact ⟨w, hw.trans hx, hi⟩

/-- As many further pushes succeed as there are free slots. -/
theorem Inv.accepts_iff (h : Inv limit n l s v) (hq : s.Quiet) (hn : n + l.length ≤ limit) :
    s.Accepts limit k x m ↔ m = (s.sema .push).counter := by
  have hroom : ∀ {s : State α ι κ} {v : View}, Inv limit n l s v → s.Quiet →
      0 < (s.sema .push).counter → (s.sema .pop).counter < limit := by
    intro s v h hq hc
    have := h.balance hq
    have := h.available hq
    omega
  constructor
  · intro ha
    induction ha generalizing v with
    | full hf => exact ((tryFails_iff hq (h.thread_idle hq)).1 hf).symm
    | push hp ha ih =>
      rename_i u m r
      have hc : 0 < (r.sema .push).counter := Nat.pos_of_ne_zero fun h0 =>
        not_tryPushes (h.thread_idle hq _) (hq _) h0 hp
      obtain ⟨t, ht, hqt, hct⟩ := tryPushes_of_quiet h hq hc (hroom h hq hc) k x
      obtain rfl : t = u := Option.some.inj (ht.symm.trans hp)
      obtain ⟨w, -, hw⟩ := h.run ht
      have hm := ih hw hqt
      omega
  · intro hm
    induction m generalizing s v with
    | zero => exact .full ((tryFails_iff hq (h.thread_idle hq)).2 hm.symm)
    | succ m ih =>
      have hc : 0 < (s.sema .push).counter := by omega
      obtain ⟨t, ht, hqt, hct⟩ := tryPushes_of_quiet h hq hc (hroom h hq hc) k x
      obtain ⟨w, -, hw⟩ := h.run ht
      exact .push ht (ih hw hqt (by omega))

omit [DecidableEq ι] [DecidableEq κ] in
theorem throws_append (as bs : List (ThrowAct α ι κ)) :
    throws (as ++ bs) = throws as + throws bs := by
  induction as with
  | nil => simp [throws]
  | cons a as ih => cases a <;> simp only [List.cons_append, throws, ih]; omega

/-- Between two states without an operation in progress, each push that fails by exception loses a
slot for good, although the stored elements and the available items are right. -/
theorem throwing_push (hn : n ≤ limit) (hl : l.length ≤ limit)
    (hs : (throwSystem α ι κ limit n l).exec (throwSystem α ι κ limit n l).init before = some s)
    (hq : s.Quiet) (ht : (throwSystem α ι κ limit n l).exec s as = some t) (hq' : t.Quiet) :
    (s.Same t → throws as = 0) ∧
    (t.moved = s.moved → t.underlying = s.underlying ∧
      (t.sema .pop).counter = (s.sema .pop).counter ∧
      (t.sema .push).counter + throws as = (s.sema .push).counter) ∧
    (n + l.length ≤ limit → ∀ k x m, t.Accepts limit k x m ↔
      m + t.underlying.length + throws (before ++ as) = n + l.length) := by
  have hinit : Inv limit n l (throwSystem α ι κ limit n l).init {} := .init hn hl
  obtain ⟨v, hlost, hpop, hv⟩ := hinit.throwRun hs
  obtain ⟨w, hlost', hpop', hw⟩ := hv.throwRun ht
  have hbs := hv.balance hq
  have hbt := hw.balance hq'
  have has := hv.available hq
  have hat := hw.available hq'
  simp only [Nat.zero_add] at hlost
  refine ⟨fun hsame => ?_, fun hm => ?_, fun hlimit k x m => ?_⟩
  · have := hsame.free
    have := congrArg List.length hsame.stored
    omega
  · have hu : t.underlying = s.underlying := by
      have := hv.order
      have := hw.order
      simp_all
    have := congrArg List.length hu
    exact ⟨hu, by omega, by omega⟩
  · rw [hw.accepts_iff hq' hlimit, throws_append]
    omega

/-- An asynchronous push into a fifo of one slot throws. -/
def throwRun : List (ThrowAct Nat Nat Nat) :=
  [.act (.start 5 (.push 7) false), .act (.sema .push (.start 5 .test)),
    .act (.sema .push (.start 5 .emplace)), .act (.sema .push (.start 5 .lock)),
    .act (.sema .push (.start 5 .retest)), .act (.sema .push (.start 5 .load)),
    .act (.sema .push (.start 5 (.cas 1 false))), .act (.sema .push (.start 5 (.unlock .value))),
    .act (.sema .push (.start 5 (.reset .value))), .act (.acquired .push 5),
    .act (.lock (.op .push 5)), .emplaceThrows (.op .push 5)]

theorem exec_throwRun : ∃ t, (throwSystem Nat Nat Nat 1 1 []).exec
    (throwSystem Nat Nat Nat 1 1 []).init throwRun = some t ∧ t.Quiet ∧
      t.moved = (throwSystem Nat Nat Nat 1 1 []).init.moved ∧ t.underlying = [] ∧
      (t.sema .push).counter = 0 ∧ t.TryFails 1 0 8 := by
  refine ⟨_, rfl, fun p => ?_, rfl, rfl, rfl, _, rfl⟩
  let P : Party Nat Nat := .op .push 5
  have hidle : Function.update (Function.update (Function.update (Function.update
      (fun _ => Pc.idle) P (.acquire (.push 7))) P (.lock (.push 7))) P (.update (.push 7))) P
      Pc.idle p = .idle := by
    by_cases hp : p = P <;> simp [hp]
  exact hidle

/-- The fifo is empty again and takes no push any more. -/
theorem slot_lost : ∃ t, (throwSystem Nat Nat Nat 1 1 []).exec
    (throwSystem Nat Nat Nat 1 1 []).init throwRun = some t ∧ t.Quiet ∧ t.underlying = [] ∧
      ¬ (throwSystem Nat Nat Nat 1 1 []).init.Same t ∧ t.Accepts 1 0 8 0 := by
  obtain ⟨t, ht, hq, -, hu, hc, hf⟩ := exec_throwRun
  refine ⟨t, ht, hq, hu, fun hs => ?_, .full hf⟩
  have hfree := hs.free
  rw [hc] at hfree
  cases hfree

theorem throwing_push_one : 1 ≤ 1 ∧ 0 ≤ 1 ∧ (throwSystem Nat Nat Nat 1 1 []).init.Quiet ∧
    ∃ t, (throwSystem Nat Nat Nat 1 1 []).exec (throwSystem Nat Nat Nat 1 1 []).init throwRun =
      some t ∧ t.Quiet ∧ (t.sema .push).counter + throws throwRun = 1 := by
  have hinit : (throwSystem Nat Nat Nat 1 1 []).init.Quiet := fun _ => rfl
  obtain ⟨t, ht, hq, hm, -⟩ := exec_throwRun
  refine ⟨Nat.le_refl 1, Nat.zero_le 1, hinit, t, ht, hq, ?_⟩
  have hstart : (throwSystem Nat Nat Nat 1 1 []).exec (throwSystem Nat Nat Nat 1 1 []).init [] =
      some (throwSystem Nat Nat Nat 1 1 []).init := rfl
  have hnil : ([] : List Nat).length ≤ 1 := Nat.zero_le 1
  exact ((throwing_push (Nat.le_refl 1) hnil hstart hinit ht hq).2.1 hm).2.2

end Coio.Fifo
