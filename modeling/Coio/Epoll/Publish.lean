import Coio.Epoll.Context
import Coio.Epoll.Readiness
import Coio.Loop.Publish

namespace Coio.EpollContext
open Transition Epoll LoopBase
set_option autoImplicit true

/-- The slots of a closed descriptor are empty. -/
theorem slot_of_closed {E : Entry ι} (h : E.Inv B held) (ho : E.opened = false) (d : Dir) :
    E.slot d = none := by
  by_contra hd
  have := (h.armed d hd).1
  rw [h.closed ho, Events.has_empty] at this
  cases this

/-- A step on a descriptor that needs no operation to move leaves its operations. -/
theorem entry_plain [DecidableEq ι] {E F : Entry ι} {x : δ} (h : E.Inv B held)
    (hp : plain (.entry x a)) (hs : E.step a = some F) :
    F.slot = E.slot ∧ F.start.call = E.start.call := by
  cases a with
  | start | arm | cancel | cancelOp => cases hp
  | «open» =>
    obtain ⟨⟨ho, -⟩, rfl⟩ := enabled_iff.1 hs
    exact ⟨funext fun d => (slot_of_closed h ho d).symm, rfl⟩
  | close | wake =>
    obtain ⟨-, rfl⟩ := enabled_iff.1 hs
    exact ⟨rfl, rfl⟩
  | ready d | unready d =>
    obtain rfl := Option.some.inj hs
    exact ⟨rfl, rfl⟩
  | attempt blocked =>
    cases blocked with
    | false => cases hp
    | true =>
      simp only [Entry.step, if_true] at hs
      (repeat' split at hs) <;> cases hs
      rename_i hc _
      exact ⟨rfl, by rw [hc]; rfl⟩
  | register =>
    simp only [Entry.step] at hs
    (repeat' split at hs) <;> cases hs
    all_goals
      rename_i hc _ _
      exact ⟨rfl, by rw [hc]; rfl⟩
  | ctl ok =>
    cases ok with
    | false => cases hp
    | true =>
      simp only [Entry.step, if_true] at hs
      (repeat' split at hs) <;> cases hs
      · rename_i hc _
        exact ⟨rfl, by rw [hc]; rfl⟩
      · rename_i hc _ _
        exact ⟨rfl, by rw [hc]; rfl⟩

theorem mem_ops {E : Entry ι} : i ∈ E.ops ↔ ∃ d, E.slot d = some i := by
  simp only [Entry.ops, List.mem_filterMap]
  constructor
  · rintro ⟨d, -, hd⟩
    exact ⟨d, hd⟩
  · rintro ⟨d, hd⟩
    exact ⟨d, by cases d <;> simp, hd⟩

theorem timer_io {kind : ι → Kind δ} (h : kind i = .io x d) : (kind i).timer = false := by
  rw [h]
  rfl

theorem initiating_iff {s : State δ ι τ ρ} : s.initiating i ↔
    (s.loop.op i).start = .inDoStart ∧ s.loop.place i = .out ∧ s.result i = none := by
  simp [State.initiating]

variable [DecidableEq δ] [DecidableEq ι]

theorem plain_step {e e' : Epoll.State δ ι} (h : Epoll.Inv e) (hp : plain a)
    (hs : Epoll.step e a = some e') (x : δ) :
    (e'.entry x).slot = (e.entry x).slot ∧ (e'.entry x).start.call = (e.entry x).start.call := by
  cases a with
  | entry y a =>
    obtain ⟨E, hE, rfl⟩ := Option.map_eq_some_iff.1 hs
    by_cases hx : x = y
    · subst hx
      simp only [Function.update_self]
      exact entry_plain (h x) hp hE
    · simp [Function.update_of_ne hx]
  | fetch y ev =>
    obtain ⟨-, rfl⟩ := enabled_iff.1 hs
    by_cases hx : x = y
    · subst hx
      simp
    · simp [Function.update_of_ne hx]
  | waited =>
    obtain ⟨-, rfl⟩ := enabled_iff.1 hs
    exact ⟨rfl, rfl⟩
  | next =>
    obtain ⟨-, hs⟩ := Option.ite_none_right_eq_some.1 hs
    dsimp only at hs
    split at hs
    · obtain rfl := Option.some.inj hs
      exact ⟨rfl, rfl⟩
    · rename_i y ev rest hb
      obtain ⟨-, rfl⟩ := enabled_iff.1 hs
      by_cases hx : x = y
      · subst hx
        simp
      · simp [Function.update_of_ne hx]
  | perform blocked =>
    cases blocked with
    | false => cases hp
    | true =>
      simp only [Epoll.step] at hs
      split at hs
      · rename_i y ev d ds hc
        obtain ⟨E, hE, rfl⟩ := Option.map_eq_some_iff.1 hs
        have hE' : E.slot = (e.entry y).slot ∧ E.start = (e.entry y).start := by
          simp only [Entry.handle, if_true] at hE
          (repeat' split at hE) <;> cases hE <;> exact ⟨rfl, rfl⟩
        by_cases hx : x = y
        · subst hx
          simp [hE'.1, hE'.2]
        · simp [Function.update_of_ne hx]
      · cases hs
  | unlock =>
    simp only [Epoll.step] at hs
    split at hs
    · rename_i y ev hc
      obtain rfl := Option.some.inj hs
      by_cases hx : x = y
      · subst hx
        simp
      · simp [Function.update_of_ne hx]
    · cases hs

/-- A result has been stored if the consumer took the operation, and only then. -/
def PlaceResult (r : Option ρ) : Place → Prop
  | .out => True
  | .inside => r = none
  | .taken t | .published t => r = none ↔ t.cancels

/-- What the operations, the slots and the initiating calls have in common. -/
structure Inv [LinearOrder τ] (kind : ι → Kind δ) (stoppable : ι → Bool) (s : State δ ι τ ρ) :
    Prop where
  loop : LoopBase.Inv (fun i => (kind i).timer) stoppable s.loop
  epoll : Epoll.Inv s.epoll
  slot : ∀ x d i, (s.epoll.entry x).slot d = some i ↔
    kind i = .io x d ∧ s.loop.place i = .inside
  call : ∀ x d i, (s.epoll.entry x).start.call = some (d, i) →
    kind i = .io x d ∧ s.initiating i
  sleep : ∀ i, kind i = .sleep → s.result i = none
  result : ∀ i x d, kind i = .io x d → PlaceResult (s.result i) (s.loop.place i)

variable [LinearOrder τ] {kind : ι → Kind δ} {stoppable : ι → Bool} {s s' : State δ ι τ ρ}

theorem Inv.init (deadline : ι → τ) :
    Inv kind stoppable ({ loop := { timers := { deadline } } } : State δ ι τ ρ) where
  loop := .init deadline
  epoll := Epoll.Inv.reachable (.init (M := Epoll.system δ ι))
  slot := by simp
  call := by simp [StartPc.call]
  sleep _ _ := rfl
  result := by simp [PlaceResult]

attribute [local grind =] Function.update_apply

/-- The steps of the operations and the timers. -/
theorem Inv.loopStep (h : Inv kind stoppable s)
    (hs : EpollContext.step kind stoppable s (.loop a) = some s') : Inv kind stoppable s' := by
  obtain ⟨ha, hs⟩ := Option.ite_none_right_eq_some.1 hs
  obtain ⟨l, hl, rfl⟩ := Option.map_eq_some_iff.1 hs
  have hplace := fun i x d (hk : kind i = .io x d) => h.loop.place_of_step hl (timer_io hk)
  exact { h with
    loop := h.loop.step hl
    slot := fun x d i => by
      rw [h.slot]
      refine and_congr_right fun hk => ?_
      rcases hplace i x d hk with hp | ⟨t, hp, hp'⟩
      · rw [hp]
      · rw [hp, hp']
        exact ⟨nofun, nofun⟩
    call := fun x d i hc => by
      obtain ⟨hk, hi⟩ := h.call x d i hc
      rw [initiating_iff] at hi ⊢
      obtain ⟨hstart, hout, hnone⟩ := hi
      refine ⟨hk, h.loop.inDoStart_of_step hl hstart ?_, ?_, hnone⟩
      · rintro r rfl
        cases r with
        | completed =>
          simp [State.allows, hnone] at ha
        | pending =>
          obtain ⟨hp, -⟩ := Option.ite_none_right_eq_some.1 hl
          simp [LoopBase.State.allows, hout] at hp
      · rcases hplace i x d hk with hp | ⟨t, hp, -⟩
        · rw [hp, hout]
        · rw [hout] at hp
          cases hp
    result := fun i x d hk => by
      have hr := h.result i x d hk
      rcases hplace i x d hk with hp | ⟨t, hp, hp'⟩
      · rw [hp]
        exact hr
      · rw [hp] at hr
        rw [hp']
        exact hr }

/-- The steps on the descriptors that need no operation to move. -/
theorem Inv.epollStep (h : Inv kind stoppable s)
    (hs : EpollContext.step kind stoppable s (.epoll a) = some s') : Inv kind stoppable s' := by
  obtain ⟨ha, hs⟩ := Option.ite_none_right_eq_some.1 hs
  obtain ⟨e, he, rfl⟩ := Option.map_eq_some_iff.1 hs
  have hplain := plain_step h.epoll ha he
  exact { h with
    epoll := h.epoll.step he
    slot := fun x d i => by
      rw [(hplain x).1]
      exact h.slot x d i
    call := fun x d i hc => h.call x d i ((hplain x).2 ▸ hc) }

/-- The initiating call begins. -/
theorem Inv.start (h : Inv kind stoppable s)
    (hs : EpollContext.step kind stoppable s (.start i) = some s') : Inv kind stoppable s' := by
  simp only [EpollContext.step] at hs
  split at hs
  · rename_i x d hk
    obtain ⟨hi, hs⟩ := Option.ite_none_right_eq_some.1 hs
    obtain ⟨e, he, rfl⟩ := Option.map_eq_some_iff.1 hs
    have hepoll := h.epoll.step he
    obtain ⟨E, hE, rfl⟩ := Option.map_eq_some_iff.1 he
    obtain ⟨-, rfl⟩ := enabled_iff.1 hE
    exact { h with
      epoll := hepoll
      slot := fun y c j => by
        have := h.slot y c j
        grind
      call := fun y c j hc => by
        have := h.call y c j
        grind [StartPc.call, initiating_iff] }
  · cases hs

omit [DecidableEq δ] in
/-- The result of an operation that has not been armed. -/
theorem Inv.setResult (h : Inv kind stoppable s) (hi : s.loop.place i = .out)
    (hk : kind i = .io x d) (hc : (s.epoll.entry x).start.call ≠ some (d, i)) :
    Inv kind stoppable { s with result := Function.update s.result i (some r) } :=
  { h with
    call := fun y c j hj => by
      obtain ⟨hjk, hji⟩ := h.call y c j hj
      have hne : j ≠ i := by
        rintro rfl
        rw [hk] at hjk
        cases hjk
        exact hc hj
      rw [initiating_iff] at hji ⊢
      exact ⟨hjk, hji.1, hji.2.1, by simpa [Function.update_of_ne hne] using hji.2.2⟩
    sleep := fun j hj => by
      have hne : j ≠ i := by
        rintro rfl
        rw [hk] at hj
        cases hj
      simpa [Function.update_of_ne hne] using h.sleep j hj
    result := fun j y c hj => by
      by_cases hji : j = i
      · subst hji
        simp only [hi, PlaceResult]
      · simp only [Function.update_of_ne hji]
        exact h.result j y c hj }

theorem Inv.complete (h : Inv kind stoppable s)
    (hs : EpollContext.step kind stoppable s (.complete i r) = some s') :
    Inv kind stoppable s' := by
  simp only [EpollContext.step] at hs
  split at hs
  · rename_i x d hk
    obtain ⟨⟨hi, hc⟩, rfl⟩ := enabled_iff.1 hs
    rw [initiating_iff] at hi
    exact h.setResult hi.2.1 hk hc
  · cases hs

/-- The initiating call ends without arming its operation. -/
theorem Inv.endCall (h : Inv kind stoppable s) (hc : (s.epoll.entry x).start.call = some (d, i))
    (he : Epoll.Inv e) (hother : ∀ y, y ≠ x → e.entry y = s.epoll.entry y)
    (hslot : (e.entry x).slot = (s.epoll.entry x).slot) (hcall : (e.entry x).start.call = none) :
    Inv kind stoppable
      { s with epoll := e, result := Function.update s.result i (some r) } := by
  obtain ⟨hk, hi⟩ := h.call x d i hc
  rw [initiating_iff] at hi
  have hbase : Inv kind stoppable { s with epoll := e } :=
    { h with
      epoll := he
      slot := fun y c j => by
        rw [← h.slot]
        by_cases hy : y = x
        · rw [hy, hslot]
        · rw [hother y hy]
      call := fun y c j hj => by
        by_cases hy : y = x
        · rw [hy, hcall] at hj
          cases hj
        · rw [hother y hy] at hj
          exact h.call y c j hj }
  exact hbase.setResult hi.2.1 hk (by simp [hcall])

theorem Inv.attempted (h : Inv kind stoppable s)
    (hs : EpollContext.step kind stoppable s (.attempted x r) = some s') :
    Inv kind stoppable s' := by
  simp only [EpollContext.step] at hs
  split at hs
  · rename_i d i hstart
    obtain ⟨e, he, rfl⟩ := Option.map_eq_some_iff.1 hs
    have hepoll := h.epoll.step he
    obtain ⟨E, hE, rfl⟩ := Option.map_eq_some_iff.1 he
    simp only [Entry.step, hstart, Bool.false_eq_true, if_false] at hE
    obtain rfl := Option.some.inj hE
    exact h.endCall (d := d) (by rw [hstart]; rfl) hepoll
      (fun y hy => Function.update_of_ne hy _ _) (by simp) (by simp [StartPc.call])
  · cases hs

/-- `epoll_ctl()` fails. -/
theorem Inv.failure (h : Inv kind stoppable s)
    (hs : EpollContext.step kind stoppable s (.failure x r) = some s') : Inv kind stoppable s' := by
  simp only [EpollContext.step] at hs
  split at hs
  · rename_i d i ev hstart
    obtain ⟨hev, hs⟩ := Option.ite_none_right_eq_some.1 hs
    obtain ⟨e, he, rfl⟩ := Option.map_eq_some_iff.1 hs
    have hepoll := h.epoll.step he
    obtain ⟨E, hE, rfl⟩ := Option.map_eq_some_iff.1 he
    simp only [Entry.step, hstart, if_neg hev, Bool.false_eq_true, if_false] at hE
    obtain rfl := Option.some.inj hE
    exact h.endCall (d := d) (by rw [hstart]; rfl) hepoll
      (fun y hy => Function.update_of_ne hy _ _) (by simp) (by simp [StartPc.call])
  · cases hs

/-- `register_event()` arms the operation. -/
theorem Inv.arm (h : Inv kind stoppable s)
    (hs : EpollContext.step kind stoppable s (.arm x) = some s') : Inv kind stoppable s' := by
  simp only [EpollContext.step] at hs
  split at hs
  · rename_i d i ev hstart
    obtain ⟨e, he, rfl⟩ := Option.map_eq_some_iff.1 hs
    have hepoll := h.epoll.step he
    obtain ⟨hk, hi⟩ := h.call x d i (by rw [hstart]; rfl)
    rw [initiating_iff] at hi
    obtain ⟨hin, hout, hnone⟩ := hi
    have hfree := (h.epoll x).free d (by rw [hstart]; rfl)
    obtain ⟨E, hE, rfl⟩ := Option.map_eq_some_iff.1 he
    simp only [Entry.step, hstart] at hE
    obtain rfl := Option.some.inj hE
    have hloop := h.loop.put hout hin (timer_io hk)
    have hnotin : ∀ j, kind j = .io x d → s.loop.place j ≠ .inside := fun j hj hp => by
      have := (h.slot x d j).2 ⟨hj, hp⟩
      rw [hfree] at this
      cases this
    exact { h with
      loop := hloop
      epoll := hepoll
      slot := fun y c j => by
        have hyc := h.slot y c j
        have hj := hnotin j
        simp only [LoopBase.State.put]
        by_cases hy : y = x
        · subst hy
          simp only [Function.update_self, Function.update_apply]
          grind
        · simp only [Function.update_of_ne hy, Function.update_apply]
          grind
      call := fun y c j hj => by
        have := h.call y c j
        simp only [initiating_iff, LoopBase.State.put] at this ⊢
        grind [StartPc.call]
      result := fun j y c hj => by
        have := h.result j y c hj
        simp only [LoopBase.State.put]
        grind [PlaceResult] }
  · cases hs

/-- The consumer performs the operation and takes it. -/
theorem Inv.perform (h : Inv kind stoppable s)
    (hs : EpollContext.step kind stoppable s (.perform r) = some s') : Inv kind stoppable s' := by
  simp only [EpollContext.step] at hs
  split at hs
  · rename_i x ev d ds hc
    obtain ⟨hcov, hs⟩ := Option.ite_none_right_eq_some.1 hs
    obtain ⟨i, hi, hs⟩ := Option.bind_eq_some_iff.1 hs
    obtain ⟨e, he, rfl⟩ := Option.map_eq_some_iff.1 hs
    have hepoll := h.epoll.step he
    obtain ⟨hk, hp⟩ := (h.slot x d i).1 hi
    simp only [Epoll.step, hc] at he
    obtain ⟨E, hE, rfl⟩ := Option.map_eq_some_iff.1 he
    simp only [Entry.handle, hcov, hi, if_true, Bool.false_eq_true, if_false] at hE
    obtain rfl := Option.some.inj hE
    exact { h with
      loop := h.loop.take hp (timer_io hk) (.inl rfl)
      epoll := hepoll
      slot := fun y c j => by
        have hyc := h.slot y c j
        simp only [LoopBase.State.take]
        by_cases hy : y = x
        · subst hy
          simp only [Function.update_self, Function.update_apply]
          grind
        · simp only [Function.update_of_ne hy, Function.update_apply]
          grind
      call := fun y c j hj => by
        have := h.call y c j
        simp only [initiating_iff, LoopBase.State.take] at this ⊢
        grind
      sleep := fun j hj => by
        have := h.sleep j hj
        grind
      result := fun j y c hj => by
        have := h.result j y c hj
        simp only [LoopBase.State.take]
        grind [PlaceResult, Taker.cancels] }
  · cases hs

/-- `io_object::cancel()` takes the operations of both slots. -/
theorem Inv.cancel (h : Inv kind stoppable s)
    (hs : EpollContext.step kind stoppable s (.cancel x) = some s') : Inv kind stoppable s' := by
  obtain ⟨e, he, rfl⟩ := Option.map_eq_some_iff.1 hs
  have hepoll := h.epoll.step he
  obtain ⟨E, hE, rfl⟩ := Option.map_eq_some_iff.1 he
  obtain ⟨-, rfl⟩ := enabled_iff.1 hE
  have hin : ∀ i, i ∈ (s.epoll.entry x).ops ↔ ∃ d, kind i = .io x d ∧ s.loop.place i = .inside :=
    fun i => by simp only [mem_ops, h.slot]
  have hn : (s.epoll.entry x).ops.Nodup := by
    have hd : ∀ i, (s.epoll.entry x).slot .input = some i →
        (s.epoll.entry x).slot .output ≠ some i := fun i h1 h2 => by
      have h1 := ((h.slot x .input i).1 h1).1
      have h2 := ((h.slot x .output i).1 h2).1
      rw [h1] at h2
      cases h2
    cases h1 : (s.epoll.entry x).slot .input with
    | none => cases h2 : (s.epoll.entry x).slot .output <;> simp [Entry.ops, h1, h2]
    | some i =>
      have := hd i h1
      cases h2 : (s.epoll.entry x).slot .output with
      | none => simp [Entry.ops, h1, h2]
      | some j =>
        simp [Entry.ops, h1, h2]
        grind
  obtain ⟨h1, h2, h3⟩ := h.loop.takeAll hn
    (fun i hi => by
      obtain ⟨d, hk, hp⟩ := (hin i).1 hi
      exact ⟨hp, timer_io hk⟩) (t := .ioCancel) (.inr rfl)
  exact { h with
    loop := h1
    epoll := hepoll
    slot := fun y c j => by
      have := h.slot y c j
      have := hin j
      dsimp only
      rw [h2]
      grind
    call := fun y c j hj => by
      have hyc := h.call y c j
      have hij := hin j
      rw [initiating_iff] at hyc ⊢
      dsimp only
      rw [h2, h3]
      grind
    result := fun j y c hj => by
      have := h.result j y c hj
      have := hin j
      dsimp only
      rw [h2]
      grind [PlaceResult, Taker.cancels] }

/-- `do_cancel()` of an I/O operation takes it if its slot still holds it. -/
theorem Inv.cancelOp (h : Inv kind stoppable s)
    (hs : EpollContext.step kind stoppable s (.cancelOp i t) = some s') :
    Inv kind stoppable s' := by
  simp only [EpollContext.step] at hs
  split at hs
  · rename_i x d hk
    obtain ⟨ht, hs⟩ := Option.ite_none_right_eq_some.1 hs
    obtain ⟨e, he, rfl⟩ := Option.map_eq_some_iff.1 hs
    have hepoll := h.epoll.step he
    obtain ⟨E, hE, rfl⟩ := Option.map_eq_some_iff.1 he
    obtain ⟨hl, hE⟩ := Option.ite_none_right_eq_some.1 hE
    have htc : t.cancels = true := by cases t <;> simp_all [Taker.Cancelling, Taker.cancels]
    by_cases hi : (s.epoll.entry x).slot d = some i
    · have hp := ((h.slot x d i).1 hi).2
      simp only [if_pos hi] at hE ⊢
      obtain rfl := Option.some.inj hE
      exact { h with
        loop := h.loop.take hp (timer_io hk) (.inr (.inr ht))
        epoll := hepoll
        slot := fun y c j => by
          have hyc := h.slot y c j
          simp only [LoopBase.State.take]
          by_cases hy : y = x
          · subst hy
            simp only [Function.update_self, Function.update_apply]
            grind
          · simp only [Function.update_of_ne hy, Function.update_apply]
            grind
        call := fun y c j hj => by
          have := h.call y c j
          simp only [initiating_iff, LoopBase.State.take] at this ⊢
          grind
        result := fun j y c hj => by
          have := h.result j y c hj
          simp only [LoopBase.State.take]
          grind [PlaceResult] }
    · simp only [if_neg hi] at hE ⊢
      obtain rfl := Option.some.inj hE
      exact { h with
        epoll := hepoll
        slot := fun y c j => by
          have := h.slot y c j
          grind
        call := fun y c j hj => by
          have := h.call y c j
          grind [initiating_iff] }
  · cases hs

theorem Inv.step (h : Inv kind stoppable s)
    (hs : EpollContext.step kind stoppable s a = some s') : Inv kind stoppable s' := by
  cases a with
  | loop a => exact h.loopStep hs
  | epoll a => exact h.epollStep hs
  | start i => exact h.start hs
  | complete i r => exact h.complete hs
  | attempted x r => exact h.attempted hs
  | failure x r => exact h.failure hs
  | arm x => exact h.arm hs
  | perform r => exact h.perform hs
  | cancel x => exact h.cancel hs
  | cancelOp i t => exact h.cancelOp hs

theorem Inv.reachable {deadline : ι → τ}
    (h : (system kind stoppable deadline).Reachable s) : Inv kind stoppable s :=
  System.Invariant.reachable ⟨.init deadline, fun _ _ _ _ hi hs => hi.step hs⟩ h

/-- What has stored a result: the consumer for an operation in its slot, and nothing once the
operation has been taken. -/
theorem Inv.result_of_step (h : Inv kind stoppable s)
    (hs : EpollContext.step kind stoppable s a = some s') (hi : s.loop.place i ≠ .out) :
    s'.result i = s.result i ∨
      s.loop.place i = .inside ∧ ∃ r, a = .perform r ∧ s'.result i = some r := by
  cases a with
  | loop a | epoll a =>
    obtain ⟨-, hs⟩ := Option.ite_none_right_eq_some.1 hs
    obtain ⟨_, -, rfl⟩ := Option.map_eq_some_iff.1 hs
    exact .inl rfl
  | start j | cancelOp j t =>
    simp only [EpollContext.step] at hs
    split at hs
    · obtain ⟨-, hs⟩ := Option.ite_none_right_eq_some.1 hs
      obtain ⟨_, -, rfl⟩ := Option.map_eq_some_iff.1 hs
      exact .inl rfl
    · cases hs
  | complete j r =>
    simp only [EpollContext.step] at hs
    split at hs
    · obtain ⟨⟨hj, -⟩, rfl⟩ := enabled_iff.1 hs
      rw [initiating_iff] at hj
      grind
    · cases hs
  | attempted x r =>
    simp only [EpollContext.step] at hs
    split at hs
    · rename_i d j hc
      obtain ⟨_, -, rfl⟩ := Option.map_eq_some_iff.1 hs
      have hj := (h.call x d j (by rw [hc]; rfl)).2
      rw [initiating_iff] at hj
      grind
    · cases hs
  | failure x r =>
    simp only [EpollContext.step] at hs
    split at hs
    · rename_i d j ev hc
      obtain ⟨-, hs⟩ := Option.ite_none_right_eq_some.1 hs
      obtain ⟨_, -, rfl⟩ := Option.map_eq_some_iff.1 hs
      have hj := (h.call x d j (by rw [hc]; rfl)).2
      rw [initiating_iff] at hj
      grind
    · cases hs
  | arm x =>
    simp only [EpollContext.step] at hs
    split at hs
    · obtain ⟨_, -, rfl⟩ := Option.map_eq_some_iff.1 hs
      exact .inl rfl
    · cases hs
  | perform r =>
    simp only [EpollContext.step] at hs
    split at hs
    · rename_i x ev d ds hc
      obtain ⟨-, hs⟩ := Option.ite_none_right_eq_some.1 hs
      obtain ⟨j, hj, hs⟩ := Option.bind_eq_some_iff.1 hs
      obtain ⟨_, -, rfl⟩ := Option.map_eq_some_iff.1 hs
      have hp := ((h.slot x d j).1 hj).2
      by_cases hij : i = j
      · subst hij
        exact .inr ⟨hp, r, rfl, by simp⟩
      · exact .inl (by simp [Function.update_of_ne hij])
    · cases hs
  | cancel x =>
    obtain ⟨_, -, rfl⟩ := Option.map_eq_some_iff.1 hs
    exact .inl rfl

omit [DecidableEq δ] in
/-- The signal that completes an operation after its taker has published it. -/
theorem Inv.doFinish (h : Inv kind stoppable s) (hp : s.loop.place i = .published t) :
    (EpollContext.doFinish kind s i = .stopped ↔ t.cancels) ∧
      (t.cancels = false → kind i = .sleep → EpollContext.doFinish kind s i = .value) ∧
      ∀ x d, t.cancels = false → kind i = .io x d →
        ∃ r, s.result i = some r ∧ EpollContext.doFinish kind s i = .result r := by
  cases hk : kind i with
  | sleep =>
    have hc := h.loop.canceled i
    simp only [hk, Kind.timer, hp, Place.cancels, Bool.true_and] at hc
    simp only [EpollContext.doFinish, hk, hc]
    cases t.cancels <;> simp
  | io x d =>
    have hr := h.result i x d hk
    simp only [hp, PlaceResult] at hr
    simp only [EpollContext.doFinish, hk]
    cases hres : s.result i with
    | none => simp [hr.1 hres]
    | some r =>
      have ht : ¬ t.cancels := fun ht => by simp [hr.2 ht] at hres
      simp [ht]

/-- Each pending operation has at most one publisher: at most one party takes it out of its heap or
slot, only that one publishes it, and when the operation completes it has been published by it. The
completion is `set_stopped` iff that party cancels, and a stored result stays. -/
theorem published_once {deadline : ι → τ} (h : (system kind stoppable deadline).Reachable s)
    (i : ι) :
    s.loop.takes i ≤ 1 ∧ s.loop.publishes i ≤ s.loop.takes i ∧
    ((s.loop.op i).result = some .pending → (s.loop.op i).finish ≠ .queued →
      s.loop.takes i = 1 ∧ s.loop.publishes i = 1 ∧ ∃ t, s.loop.place i = .published t ∧
        (EpollContext.doFinish kind s i = .stopped ↔ t.cancels) ∧
        (t.cancels = false → kind i = .sleep → EpollContext.doFinish kind s i = .value) ∧
        ∀ x d, t.cancels = false → kind i = .io x d →
          ∃ r, s.result i = some r ∧ EpollContext.doFinish kind s i = .result r) ∧
    ((s.loop.op i).result = some .pending →
      ∀ a s', EpollContext.step kind stoppable s a = some s' → s'.result i = s.result i ∨
        s.loop.place i = .inside ∧ ∃ r, a = .perform r ∧ s'.result i = some r) := by
  have hi := Inv.reachable h
  have hop := hi.loop.op i
  have htakes := hi.loop.takes i
  have hpublishes := hi.loop.publishes i
  refine ⟨?_, ?_, fun hr hf => ?_, fun hr a s' hs => hi.result_of_step hs (hop.pending hr)⟩
  · rw [htakes]
    cases s.loop.place i <;> simp [Place.takes]
  · rw [htakes, hpublishes]
    cases s.loop.place i <;> simp [Place.takes, Place.publishes]
  · have hposts := (OperationState.invariants hop.reachable).2.2.posted hf
    obtain ⟨t, hp⟩ := hop.posted hr hposts
    have hfin := hi.doFinish hp
    exact ⟨by rw [htakes, hp]; rfl, by rw [hpublishes, hp]; rfl, t, hp, hfin⟩

/-- A cancellation comes after the consumer has performed the operation, before it publishes it. -/
def lateRun : List (Act Nat Nat Nat Nat) :=
  [.loop (.op 7 .workStarted), .loop (.op 7 (.emplace false)), .loop (.op 7 .doStart),
    .epoll (.entry 0 .open), .start 7, .epoll (.entry 0 (.attempt true)),
    .epoll (.entry 0 .register), .epoll (.entry 0 (.ctl true)), .arm 0,
    .loop (.op 7 (.doStartReturns .pending)), .loop (.op 7 .arm),
    .epoll (.entry 0 (.ready .input)), .epoll (.fetch 0 { input := true }), .epoll .waited,
    .epoll .next, .perform 42, .epoll (.perform true), .epoll .unlock, .loop (.op 7 .stop),
    .loop (.op 7 .load), .loop (.op 7 (.test false)), .cancelOp 7 .requestCancel,
    .loop (.op 7 .requestCancelReturns), .loop (.publish .consumer 7), .loop (.op 7 .exchange),
    .loop (.op 7 .testPrevious), .loop (.op 7 .publishPost), .loop (.op 7 .dequeue)]

/-- Every operation reads from descriptor 0. -/
def readers : System (State Nat Nat Nat Nat) (Act Nat Nat Nat Nat) :=
  system (fun _ => .io 0 .input) (fun _ => true) id

theorem published_once_late : ∃ s, readers.exec readers.init lateRun = some s ∧
    s.loop.publishes 7 = 1 ∧
    EpollContext.doFinish (fun _ : Nat => Kind.io 0 .input) s 7 = .result 42 := by
  refine ⟨_, rfl, ?_, rfl⟩
  have h := published_once (readers.reachable_exec lateRun rfl) 7
  exact (h.2.2.1 rfl (by decide)).2.1

end Coio.EpollContext
