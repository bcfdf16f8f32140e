import Coio.Epoll.Model

namespace Coio.Epoll
open Transition
set_option autoImplicit true

theorem Events.covers_iff {e : Events} {d : Dir} :
    e.covers d ↔ e.has d ∨ e.error ∨ e.hangup := by
  obtain ⟨i, o, er, hu, ed⟩ := e
  cases d <;> cases i <;> cases o <;> cases er <;> cases hu <;> cases ed <;> decide

@[simp] theorem Events.has_empty (d : Dir) : ({} : Events).has d = false := by cases d <;> rfl

/-- A note of the events covers what they cover. -/
theorem Events.covers_or {a e : Events} (d c : Dir) (h : a.covers c ∨ e.covers d ∧ c = d) :
    (a.or (e.and (interest d))).covers c := by
  simp only [covers_iff] at h ⊢
  cases c <;> cases d <;> simp_all [Events.or, Events.and, interest, Events.of, has] <;> grind

/-- The consumer still has to handle an event of this descriptor that covers the direction. -/
def State.Batched (s : State δ ι) (x : δ) (d : Dir) : Prop :=
  (∃ e, (x, e) ∈ s.batch ∧ e.covers d) ∨ ∃ e ds, s.consumer = .handle x e ds ∧ d ∈ ds ∧ e.covers d

/-- `register_event()` holds the lock. -/
def StartPc.Locked : StartPc ι → Prop
  | .ctl _ _ _ | .arm _ _ _ => True
  | _ => False

def StartPc.dir : StartPc ι → Option Dir
  | .idle => none
  | .attempt d _ | .register d _ | .ctl d _ _ | .arm d _ _ => some d

/-- `register_event()` has computed this mask. -/
def StartPc.mask : StartPc ι → Option Events
  | .ctl _ _ ev | .arm _ _ ev => some ev
  | _ => none

/-- The invariant of one descriptor, where the batch of the consumer covers the directions `B` and
the consumer holds the lock or not. A direction that is ready and registered is known to epoll, to
the batch or, while `register_event()` has not looked at them, to the noted events. -/
structure Entry.Inv (E : Entry ι) (B : Dir → Prop) (held : Prop) : Prop where
  opened : E.start ≠ .idle → E.opened
  closed : E.opened = false → E.events = {}
  lock_start : E.lock = some .register ↔ E.start.Locked
  lock_consumer : E.lock = some .consumer ↔ held
  free : ∀ d, E.start.dir = some d → E.slot d = none
  mask : (∀ d op ev, E.start ≠ .arm d op ev) → E.mask = E.events
  armed : ∀ d, E.slot d ≠ none → E.events.has d ∧ E.mask.has d
  ready : ∀ d, E.slot d ≠ none → E.ready d → E.pending ∨ B d
  register : ∀ d op, E.start = .register d op → E.ready d → E.mask.has d →
    E.pending ∨ B d ∨ E.readyEvents.covers d
  newMask : ∀ d ev, E.start.dir = some d → E.start.mask = some ev →
    ev.has d ∧ ∀ c, E.slot c ≠ none → ev.has c
  ctl : ∀ d op ev, E.start = .ctl d op ev → E.ready d → E.mask.has d → E.pending ∨ B d
  arm : ∀ d op ev, E.start = .arm d op ev → E.mask = ev ∧ (E.ready d → E.pending ∨ B d)

theorem Entry.Inv.init : Entry.Inv ({} : Entry ι) (fun _ => False) False := by
  constructor <;> simp [StartPc.Locked, StartPc.dir]

theorem Entry.Inv.batch {E : Entry ι} (h : E.Inv B held) (hB : ∀ d, B d → C d)
    (hheld : held' ↔ held) : E.Inv C held' :=
  { h with
    lock_consumer := h.lock_consumer.trans hheld.symm
    ready := fun d hd hr => (h.ready d hd hr).imp_right (hB d)
    register := fun d op hs hr hm => (h.register d op hs hr hm).imp_right (Or.imp_left (hB d))
    ctl := fun d op ev hs hr hm => (h.ctl d op ev hs hr hm).imp_right (hB d)
    arm := fun d op ev hs => (h.arm d op ev hs).imp_right fun h hr => (h hr).imp_right (hB d) }

theorem newMask_has {E : Entry ι} {d c : Dir} (h : c = d ∨ E.slot c ≠ none) :
    (E.newMask d).has c := by
  cases c <;> cases d <;> cases hi : E.slot .input <;> cases ho : E.slot .output <;>
    simp_all [Entry.newMask, Events.or, Events.of, Events.has]

theorem alert_of {E : Entry ι} {d : Dir} (hm : E.mask.has d) (hr : E.ready d) : E.alert := by
  cases d <;> simp_all [Entry.alert, Events.has]

theorem covers_of_reports {E : Entry ι} {d : Dir} (h : E.Reports e) (hm : E.mask.has d)
    (hr : E.ready d) : e.covers d := by
  cases d <;> simp_all [Entry.Reports, Events.has]

attribute [local grind =] Function.update_apply StartPc.Locked StartPc.dir StartPc.mask

theorem Entry.Inv.idle_of_closed {E : Entry ι} (h : E.Inv B held) (ho : E.opened = false) :
    E.start = .idle := by
  by_contra hne
  simp [h.opened hne] at ho

theorem Entry.Inv.step_ready [DecidableEq ι] {E F : Entry ι} (h : E.Inv B held)
    (hs : E.step (.ready d) = some F) : F.Inv B held := by
  obtain rfl := Option.some.inj hs
  exact { h with
    ready := by have := h.ready; have := h.armed; grind
    register := by have := h.register; grind
    ctl := by have := h.ctl; grind
    arm := by have := h.arm; have := h.newMask; grind }

theorem Entry.Inv.step_unready [DecidableEq ι] {E F : Entry ι} (h : E.Inv B held)
    (hs : E.step (.unready d) = some F) : F.Inv B held := by
  obtain rfl := Option.some.inj hs
  exact { h with
    ready := by have := h.ready; grind
    register := by have := h.register; grind
    ctl := by have := h.ctl; grind
    arm := by have := h.arm; grind }

theorem Entry.Inv.step_start [DecidableEq ι] {E F : Entry ι} (h : E.Inv B held)
    (hs : E.step (.start d op) = some F) : F.Inv B held := by
  obtain ⟨⟨ho, hidle, hd⟩, rfl⟩ := enabled_iff.1 hs
  exact { h with
    opened := fun _ => ho
    lock_start := by have := h.lock_start; grind
    free := by grind
    mask := by have := h.mask; grind
    register := by grind
    newMask := by grind
    ctl := by grind
    arm := by grind }

theorem Entry.Inv.step_attempt [DecidableEq ι] {E F : Entry ι} (h : E.Inv B held)
    (hs : E.step (.attempt blocked) = some F) : F.Inv B held := by
  simp only [Entry.step] at hs
  split at hs
  · rename_i d op hp
    cases blocked with
    | true =>
      simp only [if_true] at hs
      split at hs
      · cases hs
      · rename_i hr
        obtain rfl := Option.some.inj hs
        exact { h with
          opened := by have := h.opened; grind
          lock_start := by have := h.lock_start; grind
          free := by have := h.free; grind
          mask := by have := h.mask; grind
          register := by grind
          newMask := by grind
          ctl := by grind
          arm := by grind }
    | false =>
      obtain rfl := Option.some.inj hs
      exact { h with
        opened := by grind
        lock_start := by have := h.lock_start; grind
        free := by grind
        mask := by have := h.mask; grind
        register := by grind
        newMask := by grind
        ctl := by grind
        arm := by grind }
  · cases hs

theorem Entry.Inv.step_register [DecidableEq ι] {E F : Entry ι} (h : E.Inv B held)
    (hs : E.step .register = some F) : F.Inv B held := by
  simp only [Entry.step] at hs
  split at hs
  · rename_i d op hp
    obtain ⟨hl, hs⟩ := Option.ite_none_right_eq_some.1 hs
    split at hs
    · obtain rfl := Option.some.inj hs
      exact { h with
        opened := by have := h.opened; grind
        lock_start := by have := h.lock_start; grind
        free := by have := h.free; grind
        mask := by have := h.mask; grind
        register := by grind
        newMask := by grind
        ctl := by grind
        arm := by grind }
    · rename_i hn
      obtain rfl := Option.some.inj hs
      have hreg := h.register d op hp
      exact { h with
        opened := by have := h.opened; grind
        lock_start := by grind
        lock_consumer := by have := h.lock_consumer; grind
        free := by have := h.free; grind
        mask := by have := h.mask; grind
        register := by grind
        newMask := by
          rintro c ev hc hev
          obtain rfl := Option.some.inj hc
          obtain rfl := Option.some.inj hev
          exact ⟨newMask_has (.inl rfl), fun c hc => newMask_has (.inr hc)⟩
        ctl := by grind
        arm := by grind }
  · cases hs

theorem Entry.Inv.step_ctl [DecidableEq ι] {E F : Entry ι} (h : E.Inv B held)
    (hs : E.step (.ctl ok) = some F) : F.Inv B held := by
  simp only [Entry.step] at hs
  split at hs
  · rename_i d op ev hp
    obtain ⟨hd, hslots⟩ := h.newMask d ev (by rw [hp]; rfl) (by rw [hp]; rfl)
    have hm : E.mask = E.events := h.mask (by simp [hp])
    split at hs
    · rename_i hev
      obtain rfl := Option.some.inj hs
      have hctl := h.ctl d op ev hp
      exact { h with
        opened := by have := h.opened; grind
        lock_start := by have := h.lock_start; grind
        free := by have := h.free; grind
        mask := by grind
        register := by grind
        newMask := by have := h.newMask; grind
        ctl := by grind
        arm := by grind }
    · split at hs
      · obtain ⟨-, rfl⟩ := enabled_iff.1 hs
        have halert : ∀ c, ev.has c → E.ready c →
            (E.pending || Entry.alert { E with start := .arm d op ev, mask := ev }) = true :=
          fun c hc hr => by
            simp [alert_of (E := { E with start := .arm d op ev, mask := ev }) hc hr]
        exact { h with
          opened := by have := h.opened; grind
          lock_start := by have := h.lock_start; grind
          free := by have := h.free; grind
          mask := by grind
          armed := by have := h.armed; grind
          ready := fun c hc hr => .inl (halert c (hslots c hc) hr)
          register := by grind
          newMask := by have := h.newMask; grind
          ctl := by grind
          arm := by
            rintro c op' ev' hc
            obtain ⟨rfl, rfl, rfl⟩ := StartPc.arm.inj hc
            exact ⟨rfl, fun hr => .inl (halert d hd hr)⟩ }
      · obtain rfl := Option.some.inj hs
        exact { h with
          opened := by grind
          lock_start := by grind
          lock_consumer := by have := h.lock_consumer; have := h.lock_start; grind
          free := by grind
          mask := by grind
          register := by grind
          newMask := by grind
          ctl := by grind
          arm := by grind }
  · cases hs

theorem Entry.Inv.step_arm [DecidableEq ι] {E F : Entry ι} (h : E.Inv B held)
    (hs : E.step .arm = some F) : F.Inv B held := by
  simp only [Entry.step] at hs
  split at hs
  · rename_i d op ev hp
    obtain rfl := Option.some.inj hs
    obtain ⟨hd, hslots⟩ := h.newMask d ev (by rw [hp]; rfl) (by rw [hp]; rfl)
    obtain ⟨hm, hr⟩ := h.arm d op ev hp
    exact { h with
      opened := by grind
      closed := by have := h.opened; grind
      lock_start := by grind
      lock_consumer := by have := h.lock_consumer; have := h.lock_start; grind
      free := by grind
      mask := by grind
      armed := by grind
      ready := by have := h.ready; grind
      register := by grind
      newMask := by grind
      ctl := by grind
      arm := by grind }
  · cases hs

theorem Entry.Inv.step_cancel [DecidableEq ι] {E F : Entry ι} (h : E.Inv B held)
    (hs : E.step .cancel = some F) : F.Inv B held := by
  obtain ⟨hl, rfl⟩ := enabled_iff.1 hs
  exact { h with
    free := fun _ _ => rfl
    armed := by grind
    ready := by grind
    newMask := by have := h.newMask; grind }

theorem Entry.Inv.step_cancelOp [DecidableEq ι] {E F : Entry ι} (h : E.Inv B held)
    (hs : E.step (.cancelOp d op) = some F) : F.Inv B held := by
  obtain ⟨hl, hs⟩ := Option.ite_none_right_eq_some.1 hs
  split at hs
  · obtain rfl := Option.some.inj hs
    exact { h with
      free := by have := h.free; grind
      armed := by have := h.armed; grind
      ready := by have := h.ready; grind
      newMask := by have := h.newMask; grind }
  · obtain rfl := Option.some.inj hs
    exact h

/-- The kernel, the initiating call and the cancellations keep the invariant. -/
theorem Entry.Inv.step [DecidableEq ι] {E F : Entry ι} (h : E.Inv B held)
    (hs : E.step a = some F) : F.Inv B held := by
  cases a with
  | «open» =>
    obtain ⟨⟨ho, hl⟩, rfl⟩ := enabled_iff.1 hs
    have hidle := h.idle_of_closed ho
    exact { h with
      opened := fun _ => rfl
      closed := fun _ => rfl
      free := fun _ _ => rfl
      mask := fun _ => by rw [h.mask (by simp [hidle]), h.closed ho]
      armed := fun _ hd => absurd rfl hd
      ready := fun _ hd => absurd rfl hd
      register := by grind
      newMask := by grind
      ctl := by grind
      arm := by grind }
  | close =>
    obtain ⟨⟨ho, hl, hidle, hin, hout⟩, rfl⟩ := enabled_iff.1 hs
    have hslot : ∀ d, E.slot d = none := by rintro (_ | _) <;> assumption
    exact { h with
      opened := by grind
      closed := fun _ => rfl
      mask := fun _ => rfl
      armed := by grind
      ready := by grind
      register := by grind
      ctl := by grind
      arm := by grind }
  | ready d => exact h.step_ready hs
  | unready d => exact h.step_unready hs
  | wake =>
    obtain ⟨-, rfl⟩ := enabled_iff.1 hs
    exact { h with
      ready := fun _ _ _ => .inl rfl
      register := fun _ _ _ _ _ => .inl rfl
      ctl := fun _ _ _ _ _ _ => .inl rfl
      arm := fun d op ev hs => ⟨(h.arm d op ev hs).1, fun _ => .inl rfl⟩ }
  | start d op => exact h.step_start hs
  | attempt blocked => exact h.step_attempt hs
  | register => exact h.step_register hs
  | ctl ok => exact h.step_ctl hs
  | arm => exact h.step_arm hs
  | cancel => exact h.step_cancel hs
  | cancelOp d op => exact h.step_cancelOp hs

/-- `epoll_wait()` hands the event of a pending descriptor out. -/
theorem Entry.Inv.fetch {E : Entry ι} (h : E.Inv B held) (he : E.Reports e)
    (hB : ∀ d, B d ∨ e.covers d → C d) (hheld : held' ↔ held) :
    Entry.Inv { E with pending := false } C held' :=
  { h with
    lock_consumer := h.lock_consumer.trans hheld.symm
    ready := fun d hd hr => .inr (hB d (.inr (covers_of_reports he (h.armed d hd).2 hr)))
    register := fun d _ _ hr hm => .inr (.inl (hB d (.inr (covers_of_reports he hm hr))))
    ctl := fun d _ _ _ hr hm => .inr (hB d (.inr (covers_of_reports he hm hr)))
    arm := fun d op ev hs => by
      obtain ⟨hm, -⟩ := h.arm d op ev hs
      have hd := (h.newMask d ev (by rw [hs]; rfl) (by rw [hs]; rfl)).1
      exact ⟨hm, fun hr => .inr (hB d (.inr (covers_of_reports he (hm ▸ hd) hr)))⟩ }

theorem Entry.Inv.take {E : Entry ι} (h : E.Inv B held) (hl : E.lock = none)
    (hB : ∀ d, B d → C d) (hheld : held') :
    Entry.Inv { E with lock := some .consumer } C held' :=
  { h.batch hB Iff.rfl with
    lock_start := by have := h.lock_start; grind
    lock_consumer := ⟨fun _ => hheld, fun _ => rfl⟩ }

theorem Entry.Inv.release {E : Entry ι} (h : E.Inv B held) (hh : held) (hB : ∀ d, B d → C d)
    (hheld : ¬ held') : Entry.Inv { E with lock := none } C held' :=
  { h.batch hB Iff.rfl with
    lock_start := by have := h.lock_start; have := h.lock_consumer; grind
    lock_consumer := ⟨nofun, fun hh' => absurd hh' hheld⟩ }

/-- The consumer handles an event in the direction `d`. -/
theorem Entry.Inv.handle {E F : Entry ι} (h : E.Inv B held) (hh : held)
    (hs : E.handle e d b = some F) (hB : ∀ c, B c → C c ∨ c = d ∧ e.covers d) (hheld : held') :
    F.Inv C held' := by
  have hlock := h.lock_consumer.2 hh
  have hstart : ¬ E.start.Locked := fun hl => by
    have := h.lock_start.2 hl
    simp [hlock] at this
  have hlc : E.lock = some .consumer ↔ held' := by simp [hlock, hheld]
  simp only [Entry.handle] at hs
  split at hs
  · rename_i hcov
    split at hs
    · rename_i hd
      obtain rfl := Option.some.inj hs
      exact { h with
        lock_consumer := hlc
        ready := by have := h.ready; grind
        register := fun c op hc hr hm => by
          have hcov' := Events.covers_or (a := E.readyEvents) (e := e) d c
          have := h.register c op hc hr hm
          grind
        ctl := by grind
        arm := by grind }
    · rename_i op hd
      have hfree := h.free d
      split at hs
      · split at hs
        · cases hs
        · rename_i hr
          obtain rfl := Option.some.inj hs
          exact { h with
            lock_consumer := hlc
            ready := by have := h.ready; grind
            register := by have := h.register; grind
            ctl := by grind
            arm := by grind }
      · obtain rfl := Option.some.inj hs
        exact { h with
          lock_consumer := hlc
          free := by have := h.free; grind
          armed := by have := h.armed; grind
          ready := by have := h.ready; grind
          register := by have := h.register; grind
          newMask := by have := h.newMask; grind
          ctl := by grind
          arm := by grind }
  · rename_i hcov
    obtain rfl := Option.some.inj hs
    exact h.batch (fun c hc => (hB c hc).resolve_right fun hd => hcov hd.2) (by simp [hh, hheld])

/-- The invariant of the context: each descriptor keeps its own. -/
def Inv (s : State δ ι) : Prop :=
  ∀ x, (s.entry x).Inv (s.Batched x) (∃ e ds, s.consumer = .handle x e ds)

variable [DecidableEq δ] [DecidableEq ι] {s t : State δ ι}

theorem Inv.entry (h : Inv s) (hs : step s (.entry x a) = some t) : Inv t := by
  obtain ⟨E, hE, rfl⟩ := Option.map_eq_some_iff.1 hs
  intro y
  by_cases hy : y = x
  · subst hy
    simp only [Function.update_self]
    exact (h y).step hE
  · simp only [Function.update_of_ne hy]
    exact h y

theorem Inv.fetch (h : Inv s) (hs : step s (.fetch x e) = some t) : Inv t := by
  obtain ⟨⟨hw, -, hp, hr⟩, rfl⟩ := enabled_iff.1 hs
  intro y
  by_cases hy : y = x
  · subst hy
    simp only [Function.update_self]
    exact (h y).fetch hr (fun d hd => by grind [State.Batched]) (by simp)
  · simp only [Function.update_of_ne hy]
    exact (h y).batch (fun d hd => by grind [State.Batched]) (by simp)

theorem Inv.waited (h : Inv s) (hs : step s .waited = some t) : Inv t := by
  obtain ⟨hw, rfl⟩ := enabled_iff.1 hs
  intro y
  exact (h y).batch (fun d hd => by grind [State.Batched]) (by simp [hw])

theorem Inv.next (h : Inv s) (hs : step s .next = some t) : Inv t := by
  obtain ⟨hw, hs⟩ := Option.ite_none_right_eq_some.1 hs
  split at hs
  · obtain rfl := Option.some.inj hs
    intro y
    exact (h y).batch (fun d hd => by grind [State.Batched]) (by simp [hw])
  · rename_i x e rest hb
    obtain ⟨hl, rfl⟩ := enabled_iff.1 hs
    intro y
    by_cases hy : y = x
    · subst hy
      simp only [Function.update_self]
      refine (h y).take hl (fun d hd => ?_) ⟨e, _, rfl⟩
      cases d <;> grind [State.Batched]
    · simp only [Function.update_of_ne hy]
      exact (h y).batch (fun d hd => by grind [State.Batched]) (by simp [hw, Ne.symm hy])

theorem Inv.perform (h : Inv s) (hs : step s (.perform b) = some t) : Inv t := by
  simp only [Epoll.step] at hs
  split at hs
  · rename_i x e d ds hc
    obtain ⟨E, hE, rfl⟩ := Option.map_eq_some_iff.1 hs
    intro y
    by_cases hy : y = x
    · subst hy
      simp only [Function.update_self]
      exact (h y).handle ⟨e, _, hc⟩ hE (fun c hc => by grind [State.Batched]) ⟨e, ds, rfl⟩
    · simp only [Function.update_of_ne hy]
      exact (h y).batch (fun d hd => by grind [State.Batched]) (by simp [hc, Ne.symm hy])
  · cases hs

theorem Inv.unlock (h : Inv s) (hs : step s .unlock = some t) : Inv t := by
  simp only [Epoll.step] at hs
  split at hs
  · rename_i x e hc
    obtain rfl := Option.some.inj hs
    intro y
    by_cases hy : y = x
    · subst hy
      simp only [Function.update_self]
      exact (h y).release ⟨e, [], hc⟩ (fun d hd => by grind [State.Batched]) (by simp)
    · simp only [Function.update_of_ne hy]
      exact (h y).batch (fun d hd => by grind [State.Batched]) (by simp [hc, Ne.symm hy])
  · cases hs

theorem Inv.step (h : Inv s) (hs : Epoll.step s a = some t) : Inv t := by
  cases a with
  | entry x a => exact h.entry hs
  | fetch x e => exact h.fetch hs
  | waited => exact h.waited hs
  | next => exact h.next hs
  | perform b => exact h.perform hs
  | unlock => exact h.unlock hs

theorem Inv.reachable (h : (system δ ι).Reachable s) : Inv s :=
  System.Invariant.reachable
    ⟨fun x => Entry.Inv.init.batch (fun _ hd => hd.elim) (by simp [system]),
      fun _ _ _ _ hi hs => hi.step hs⟩ h

/-- No readiness is lost: the direction of an armed operation is registered, and when it is ready,
an event that covers it is pending in the kernel or in the batch that the consumer handles. -/
theorem no_lost_readiness (h : (system δ ι).Reachable s) (ha : (s.entry x).slot d = some op) :
    (s.entry x).events.has d ∧ (s.entry x).mask.has d ∧
      ((s.entry x).ready d → (s.entry x).pending ∨ s.Batched x d) := by
  have hx := Inv.reachable h x
  have hd : (s.entry x).slot d ≠ none := by simp [ha]
  obtain ⟨he, hm⟩ := hx.armed d hd
  exact ⟨he, hm, hx.ready d hd⟩

/-- A stale event meets an operation that was armed without a call of `epoll_ctl()`. -/
def staleRun : List (Act Nat Nat) :=
  [.entry 0 .open, .entry 0 (.start .input 7), .entry 0 (.attempt true), .entry 0 .register,
    .entry 0 (.ctl true), .entry 0 .arm, .entry 0 (.ready .input), .fetch 0 { input := true },
    .entry 0 .cancel, .entry 0 (.unready .input), .entry 0 (.start .input 8),
    .entry 0 (.attempt true), .entry 0 .register, .entry 0 (.ctl true), .entry 0 .arm, .waited,
    .next, .perform true, .entry 0 (.ready .input)]

theorem no_lost_readiness_stale : ∃ s, (system Nat Nat).exec {} staleRun = some s ∧
    (s.entry 0).slot .input = some 8 ∧ (s.entry 0).events.has .input := by
  refine ⟨_, rfl, rfl, ?_⟩
  have hreach := (system Nat Nat).reachable_exec staleRun rfl
  exact (no_lost_readiness hreach (x := 0) (d := .input) rfl).1

end Coio.Epoll
