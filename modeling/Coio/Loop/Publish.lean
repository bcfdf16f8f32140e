import Coio.Loop.Model
import Coio.Operation.Cancel
import Coio.TimerQueue.Fuel

namespace Coio.LoopBase
open Transition
set_option autoImplicit true

def Place.takes : Place → Nat
  | .out | .inside => 0
  | _ => 1

def Place.publishes : Place → Nat
  | .published _ => 1
  | _ => 0

/-- A cancelling party has taken the operation. -/
def Place.cancels : Place → Bool
  | .taken t | .published t => t.cancels
  | _ => false

/-- The operation is in its heap or slot or in the hands of a taker. -/
def Place.Waiting : Place → Prop
  | .inside | .taken _ => True
  | _ => False

/-- What the place of an operation asks of a step of its own. -/
def Place.Allows (p : Place) : OperationState.Act → Prop
  | .publish _ => False
  | .doStartReturns .pending => p ≠ .out
  | .doStartReturns .completed => p = .out
  | .deferredCancelReturns => p ≠ .taken .startCancel
  | .requestCancelReturns => p ≠ .taken .requestCancel
  | _ => True

/-- The place of an operation and its calls agree: no `publish()` is called on a waiting one. -/
structure OpInv (b : Bool) (o : OperationState.State) (p : Place) : Prop where
  reachable : (OperationState.system b).Reachable o
  out : p = .out → o.publish ≠ .idle → o.result = some .completed
  waiting : p.Waiting → o.publish = .idle ∧ o.MayPublish .backend
  startCancel : p = .taken .startCancel → o.start = .inDoCancel
  requestCancel : p = .taken .requestCancel → o.cancel = .inDoCancel
  published : ∀ t, p = .published t → o.publish ≠ .idle
  pending : o.result = some .pending → p ≠ .out
  completed : o.result = some .completed → p = .out

theorem OpInv.init : OpInv b {} .out where
  reachable := .init
  out _ h := absurd rfl h
  waiting h := h.elim
  startCancel := nofun
  requestCancel := nofun
  published := nofun
  pending := nofun
  completed := nofun

attribute [local grind =] Place.Waiting Place.Allows OperationState.State.MayPublish

/-- A step of an operation that its place allows. -/
theorem OpInv.step (h : OpInv b o p) (ha : p.Allows a) (hs : OperationState.step b o a = some o') :
    OpInv b o' p := by
  have hr := h.reachable.step hs
  have ⟨_, hout, hwaiting, hstart, hrequest, hpublished, hpending, hcompleted⟩ := h
  cases a with
  | publish c => exact ha.elim
  | doStartReturns r =>
    cases r with
    | completed | pending =>
      obtain ⟨hp, rfl⟩ := enabled_iff.1 hs
      exact { h with
        reachable := hr
        out := by grind
        waiting := by grind
        startCancel := by grind
        published := by grind
        pending := by grind
        completed := by grind }
  | emplace requested =>
    obtain ⟨hp, hs⟩ := Option.ite_none_right_eq_some.1 hs
    split at hs <;> cases hs
    all_goals exact { h with
      reachable := hr
      waiting := by grind
      startCancel := by grind
      requestCancel := by grind }
  | arm | armDeferred =>
    obtain ⟨hp, hs⟩ := Option.ite_none_right_eq_some.1 hs
    (repeat' split at hs) <;> cases hs
    all_goals exact { h with
      reachable := hr
      waiting := by grind
      startCancel := by grind }
  | check =>
    simp only [OperationState.step] at hs
    split at hs <;> cases hs
    exact { h with
      reachable := hr
      waiting := by grind
      startCancel := by grind }
  | test =>
    simp only [OperationState.step] at hs
    (repeat' split at hs) <;> cases hs
    all_goals exact { h with
      reachable := hr
      requestCancel := by grind }
  | testPrevious =>
    simp only [OperationState.step] at hs
    split at hs <;> cases hs
    exact { h with
      reachable := hr
      out := by grind
      waiting := by grind
      published := by grind }
  | _ =>
    obtain ⟨hp, rfl⟩ := enabled_iff.1 hs
    exact { h with
      reachable := hr
      out := by grind
      waiting := by grind
      startCancel := by grind
      requestCancel := by grind
      published := by grind }

/-- `do_start()` puts the operation into its heap or slot. -/
theorem OpInv.put (h : OpInv b o .out) (hs : o.start = .inDoStart) : OpInv b o .inside := by
  have hresult := (OperationState.invariants h.reachable).1.result
  rw [hs] at hresult
  have hnone : o.result = none := hresult
  have hout := h.out rfl
  exact { h with
    out := nofun
    waiting := fun _ => ⟨by grind, by simp [OperationState.State.MayPublish, hs, hnone]⟩
    startCancel := nofun
    requestCancel := nofun
    published := nofun
    pending := by simp [hnone]
    completed := by simp [hnone] }

/-- A taker takes the operation; `do_cancel()` is one of its calls. -/
theorem OpInv.take (h : OpInv b o .inside)
    (ht : t = .consumer ∨ t = .ioCancel ∨ t.Cancelling o) : OpInv b o (.taken t) :=
  { h with
    out := nofun
    waiting := fun _ => h.waiting trivial
    startCancel := by rintro ⟨⟩; simpa [Taker.Cancelling] using ht
    requestCancel := by rintro ⟨⟩; simpa [Taker.Cancelling] using ht
    published := nofun
    pending := fun _ => nofun
    completed := fun hc => absurd (h.completed hc) nofun }

/-- The taker of an operation can call `publish()`: nobody has done so. -/
theorem OpInv.publish_enabled (h : OpInv b o (.taken t)) :
    OperationState.step b o (.publish t.caller) =
      some { o with publish := .exchange, caller := t.caller } := by
  obtain ⟨hp, hm⟩ := h.waiting trivial
  have hs := h.startCancel
  have hr := h.requestCancel
  have hmay : o.MayPublish t.caller := by
    cases t with
    | consumer => exact hm
    | ioCancel => exact hm
    | startCancel => simp [OperationState.State.MayPublish, Taker.caller, hs]
    | requestCancel => simp [OperationState.State.MayPublish, Taker.caller, hr]
  simp [OperationState.step, hp, hmay]

theorem OpInv.publish (h : OpInv b o (.taken t))
    (hs : OperationState.step b o (.publish t.caller) = some o') : OpInv b o' (.published t) := by
  have hr := h.reachable.step
    (show (OperationState.system b).step o (.publish t.caller) = some o' from hs)
  have hc := h.completed
  rw [h.publish_enabled] at hs
  obtain rfl := Option.some.inj hs
  exact {
    reachable := hr
    out := nofun
    waiting := fun hw => hw.elim
    startCancel := nofun
    requestCancel := nofun
    published := nofun
    pending := fun _ => nofun
    completed := fun hc' => absurd (hc hc') nofun }

/-- An operation that nobody publishes is not posted. -/
theorem posts_of_idle (h : (OperationState.system b).Reachable o) (hp : o.publish = .idle) :
    o.posts = 0 := by
  have hi := (OperationState.invariants h).1
  have hstart := hi.start
  have := hi.posts
  have := hi.exchanged
  grind [OperationState.StartPc.Allows, OperationState.PublishPc.Exchanged]

/-- A pending operation is posted only after its taker has published it. -/
theorem OpInv.posted (h : OpInv b o p) (hr : o.result = some .pending) (hp : 0 < o.posts) :
    ∃ t, p = .published t := by
  have hidle : o.publish ≠ .idle := fun hidle => by
    have := posts_of_idle h.reachable hidle
    omega
  cases p with
  | out => exact absurd rfl (h.pending hr)
  | inside => exact absurd (h.waiting trivial).1 hidle
  | taken t => exact absurd (h.waiting trivial).1 hidle
  | published t => exact ⟨t, rfl⟩

/-- A taker holds each operation that it has taken, once and alone. -/
structure Holds [DecidableEq ι] (timer stoppable : ι → Bool) (s : State ι τ) : Prop where
  op : ∀ i, OpInv (stoppable i) (s.op i) (s.place i)
  nodup : ∀ t, (s.holding t).Nodup
  mem : ∀ t i, i ∈ s.holding t ↔ s.place i = .taken t
  canceled : ∀ i, s.canceled i = (timer i && (s.place i).cancels)
  takes : ∀ i, s.takes i = (s.place i).takes
  publishes : ∀ i, s.publishes i = (s.place i).publishes

/-- The invariant of the operations of a context with their timer queue. -/
structure Inv [DecidableEq ι] [LinearOrder τ] (timer stoppable : ι → Bool) (s : State ι τ) : Prop
    extends Holds timer stoppable s where
  heap : ∃ S, s.timers.Represents S ∧ ∀ i, i ∈ S ↔ timer i ∧ s.place i = .inside

variable [DecidableEq ι] {timer stoppable : ι → Bool} {s s' : State ι τ}

attribute [local grind =] Function.update_apply Place.takes Place.publishes Place.cancels

theorem Holds.allows_iff (h : Holds timer stoppable s) : s.allows i a ↔ (s.place i).Allows a := by
  cases a with
  | doStartReturns r => cases r <;> simp [State.allows, Place.Allows]
  | _ => simp [State.allows, Place.Allows, h.mem]

theorem Holds.opStep (h : Holds timer stoppable s) (ha : s.allows i a)
    (hs : s.opStep stoppable i a = some s') : Holds timer stoppable s' := by
  obtain ⟨o, ho, rfl⟩ := Option.map_eq_some_iff.1 hs
  have hi := (h.op i).step (h.allows_iff.1 ha) ho
  exact { h with
    op := fun j => by
      by_cases hj : j = i
      · subst hj
        simpa using hi
      · simpa [Function.update_of_ne hj] using h.op j }

theorem Holds.put (h : Holds timer stoppable s) (hp : s.place i = .out)
    (hs : (s.op i).start = .inDoStart) : Holds timer stoppable (s.put i) := by
  have hi := h.op i
  rw [hp] at hi
  have hput := hi.put hs
  simp only [State.put]
  exact { h with
    op := by have := h.op; grind
    mem := by have := h.mem; grind
    canceled := by have := h.canceled; grind
    takes := by have := h.takes; grind
    publishes := by have := h.publishes; grind }

/-- A taker takes an operation out of its heap or slot. -/
theorem Holds.take (h : Holds timer stoppable s) (hp : s.place i = .inside)
    (ht : t = .consumer ∨ t = .ioCancel ∨ t.Cancelling (s.op i))
    (hc : c = Function.update s.canceled i (timer i && t.cancels)) :
    Holds timer stoppable { s.take t i with canceled := c } := by
  have hi := h.op i
  rw [hp] at hi
  have htake := hi.take ht
  subst hc
  simp only [State.take]
  exact { h with
    op := by have := h.op; grind
    nodup := by have := h.nodup; have := h.mem; grind
    mem := by have := h.mem; grind
    canceled := by have := h.canceled; grind
    takes := by have := h.takes; grind
    publishes := by have := h.publishes; grind }

/-- A taker that does not cancel a timer. -/
theorem Holds.takeBy (h : Holds timer stoppable s) (hp : s.place i = .inside)
    (ht : t = .consumer ∨ t = .ioCancel ∨ t.Cancelling (s.op i))
    (hc : (timer i && t.cancels) = false) : Holds timer stoppable (s.take t i) := by
  refine h.take hp ht (c := s.canceled) (Function.update_eq_self_iff.2 ?_).symm
  rw [hc, h.canceled, hp]
  simp [Place.cancels]

/-- A taker takes the operations of a list one by one. -/
theorem Holds.takeAll {l : List ι} (h : Holds timer stoppable s) (hn : l.Nodup)
    (hp : ∀ i ∈ l, s.place i = .inside) (ht : t = .consumer ∨ t = .ioCancel)
    (hc : ∀ i ∈ l, (timer i && t.cancels) = false) :
    Holds timer stoppable (l.foldl (fun s i => s.take t i) s) ∧
      (∀ j, (l.foldl (fun s i => s.take t i) s).place j =
        if j ∈ l then .taken t else s.place j) ∧
      (l.foldl (fun s i => s.take t i) s).timers = s.timers ∧
      (l.foldl (fun s i => s.take t i) s).op = s.op := by
  induction l generalizing s with
  | nil => exact ⟨h, by simp, rfl, rfl⟩
  | cons i l ih =>
    obtain ⟨hil, hnl⟩ := List.nodup_cons.1 hn
    have htake := h.takeBy (hp i List.mem_cons_self) (ht.imp_right .inl)
      (hc i List.mem_cons_self)
    obtain ⟨h1, h2, h3, h4⟩ := ih htake hnl (fun j hj => by
      have := hp j (List.mem_cons_of_mem _ hj)
      simp only [State.take]
      grind) fun j hj => hc j (List.mem_cons_of_mem _ hj)
    refine ⟨h1, fun j => ?_, h3, h4⟩
    rw [List.foldl_cons, h2]
    simp only [State.take]
    grind

variable [LinearOrder τ]

theorem Inv.init (deadline : ι → τ) : Inv timer stoppable { timers := { deadline } } where
  op _ := .init
  nodup _ := .nil
  mem := by simp
  heap := ⟨∅, .init deadline, by simp⟩
  canceled := by simp [Place.cancels]
  takes _ := rfl
  publishes _ := rfl

theorem Inv.opStep (h : Inv timer stoppable s) (ha : s.allows i a)
    (hs : s.opStep stoppable i a = some s') : Inv timer stoppable s' := by
  refine { h.toHolds.opStep ha hs with heap := ?_ }
  obtain ⟨o, ho, rfl⟩ := Option.map_eq_some_iff.1 hs
  exact h.heap

theorem Inv.publish (h : Inv timer stoppable s)
    (hs : LoopBase.step timer stoppable s (.publish t i) = some s') : Inv timer stoppable s' := by
  obtain ⟨hi, hs⟩ := Option.ite_none_right_eq_some.1 hs
  have hp := (h.mem t i).1 hi
  obtain ⟨r, hr, rfl⟩ := Option.map_eq_some_iff.1 hs
  obtain ⟨o, ho, rfl⟩ := Option.map_eq_some_iff.1 hr
  have hop := h.op i
  rw [hp] at hop
  have hpub := hop.publish ho
  have hn := h.nodup t
  exact { h with
    op := by have := h.op; grind
    nodup := by have := h.nodup; grind
    mem := by have := h.mem; have := fun j => hn.mem_erase_iff (a := j) (b := i); grind
    heap := by
      obtain ⟨S, hS, hmem⟩ := h.heap
      exact ⟨S, hS, by grind⟩
    canceled := by have := h.canceled; grind
    takes := by have := h.takes; grind
    publishes := by have := h.publishes; grind }

/-- A timer enters the heap in `do_start()`. -/
theorem Inv.add (h : Inv timer stoppable s)
    (hs : LoopBase.step timer stoppable s (.add i) = some s') : Inv timer stoppable s' := by
  obtain ⟨⟨ht, hstart, hp⟩, rfl⟩ := enabled_iff.1 hs
  obtain ⟨S, hS, hmem⟩ := h.heap
  have hi : i ∉ S := by simp [hmem, hp]
  refine { h.toHolds.put hp hstart with heap := ⟨insert i S, (hS.add hi).1, fun j => ?_⟩ }
  simp only [State.put, Finset.mem_insert, hmem]
  grind

/-- An operation that is no timer enters its slot. -/
theorem Inv.put (h : Inv timer stoppable s) (hp : s.place i = .out)
    (hs : (s.op i).start = .inDoStart) (ht : timer i = false) : Inv timer stoppable (s.put i) := by
  obtain ⟨S, hS, hmem⟩ := h.heap
  refine { h.toHolds.put hp hs with heap := ⟨S, hS, fun j => ?_⟩ }
  simp only [State.put, hmem]
  grind

/-- The operations of a list, none of which is a timer, are taken out of their slots. -/
theorem Inv.takeAll {l : List ι} (h : Inv timer stoppable s) (hn : l.Nodup)
    (hp : ∀ i ∈ l, s.place i = .inside ∧ timer i = false) (ht : t = .consumer ∨ t = .ioCancel) :
    Inv timer stoppable (l.foldl (fun s i => s.take t i) s) ∧
      (∀ j, (l.foldl (fun s i => s.take t i) s).place j =
        if j ∈ l then .taken t else s.place j) ∧
      (l.foldl (fun s i => s.take t i) s).op = s.op := by
  obtain ⟨S, hS, hmem⟩ := h.heap
  obtain ⟨h1, h2, h3, h4⟩ := h.toHolds.takeAll hn (fun i hi => (hp i hi).1) ht
    fun i hi => by simp [(hp i hi).2]
  refine ⟨{ h1 with heap := ⟨S, h3 ▸ hS, fun j => ?_⟩ }, h2, h4⟩
  rw [h2, hmem]
  have := hp j
  grind

/-- An operation that is no timer is taken out of its slot. -/
theorem Inv.take (h : Inv timer stoppable s) (hp : s.place i = .inside) (hi : timer i = false)
    (ht : t = .consumer ∨ t = .ioCancel ∨ t.Cancelling (s.op i)) :
    Inv timer stoppable (s.take t i) := by
  obtain ⟨S, hS, hmem⟩ := h.heap
  refine { h.toHolds.takeBy hp ht (by simp [hi]) with heap := ⟨S, hS, fun j => ?_⟩ }
  simp only [State.take, hmem]
  grind

/-- `do_cancel()` of a timer takes it if it is still in the heap. -/
theorem Inv.remove (h : Inv timer stoppable s)
    (hs : LoopBase.step timer stoppable s (.remove i t fuel) = some s') :
    Inv timer stoppable s' := by
  obtain ⟨⟨ht, hc⟩, hs⟩ := Option.ite_none_right_eq_some.1 hs
  obtain ⟨⟨q, b⟩, hq, rfl⟩ := Option.map_eq_some_iff.1 hs
  obtain ⟨S, hS, hmem⟩ := h.heap
  obtain ⟨rfl, hS', -⟩ := hS.remove_eq hq
  by_cases hi : i ∈ S
  · simp only [hi, decide_true, if_true]
    have hp := ((hmem i).1 hi).2
    have htc : t.cancels = true := by cases t <;> simp_all [Taker.Cancelling, Taker.cancels]
    have htake := h.toHolds.take hp (.inr (.inr hc)) (c := Function.update s.canceled i true)
      (by rw [ht, htc]; rfl)
    refine { htake with heap := ⟨S.erase i, hS', fun j => ?_⟩ }
    simp only [State.take, Finset.mem_erase, hmem]
    grind
  · simp only [hi, decide_false, Bool.false_eq_true, if_false]
    exact { h with heap := ⟨S, by rwa [Finset.erase_eq_of_notMem hi] at hS', hmem⟩ }

/-- `do_one()` takes the timers that are ready. -/
theorem Inv.takeReadyTimers (h : Inv timer stoppable s)
    (hs : LoopBase.step timer stoppable s (.takeReadyTimers now fuel) = some s') :
    Inv timer stoppable s' ∧ s'.op = s.op ∧ s'.timers.deadline = s.timers.deadline ∧
      ∀ i, s'.place i = if timer i ∧ s.place i = .inside ∧ s.timers.deadline i ≤ now then
        .taken .consumer else s.place i := by
  obtain ⟨⟨q, ready⟩, hq, rfl⟩ := Option.map_eq_some_iff.1 hs
  obtain ⟨S, hS, hmem⟩ := h.heap
  obtain ⟨hS', hd, hn, hready⟩ := hS.takeReadyTimers_eq hq
  have hbase : Holds timer stoppable { s with timers := q } := { h with }
  obtain ⟨h1, h2, h3, h4⟩ := hbase.takeAll hn (fun i hi => ((hmem i).1 ((hready i).1 hi).1).2)
    (.inl rfl) fun _ _ => by simp [Taker.cancels]
  refine ⟨{ h1 with heap := ⟨S.filter fun x => now < s.timers.deadline x, ?_, fun j => ?_⟩ }, h4,
    ?_, fun i => ?_⟩
  · dsimp only
    rw [h3]
    exact hS'
  · dsimp only
    rw [h2, Finset.mem_filter]
    have := hready j
    have := hmem j
    grind
  · dsimp only
    rw [h3]
    exact hd
  · dsimp only
    rw [h2]
    simp only [hready, hmem, and_assoc]

theorem opStep_of_step
    (hs : LoopBase.step timer stoppable s (.op i a) = some s') :
    ∃ o, OperationState.step (stoppable i) (s.op i) a = some o ∧
      s' = { s with op := Function.update s.op i o } := by
  obtain ⟨-, hs⟩ := Option.ite_none_right_eq_some.1 hs
  obtain ⟨o, ho, rfl⟩ := Option.map_eq_some_iff.1 hs
  exact ⟨o, ho, rfl⟩

theorem Inv.publish_spec (h : Inv timer stoppable s)
    (hs : LoopBase.step timer stoppable s (.publish t i) = some s') :
    (∃ o, s'.op = Function.update s.op i o ∧ o.start = (s.op i).start ∧
        o.finish = (s.op i).finish ∧ o.posts = (s.op i).posts ∧ o.publish = .exchange ∧
        o.caller = t.caller) ∧
      (s.op i).publish = .idle ∧ s'.timers = s.timers ∧
      ∀ j, s'.place j = s.place j ∨ s'.place j = .published t := by
  obtain ⟨hi, hs⟩ := Option.ite_none_right_eq_some.1 hs
  obtain ⟨r, hr, rfl⟩ := Option.map_eq_some_iff.1 hs
  obtain ⟨o, ho, rfl⟩ := Option.map_eq_some_iff.1 hr
  have hop := h.op i
  rw [(h.mem t i).1 hi] at hop
  rw [hop.publish_enabled] at ho
  obtain rfl := Option.some.inj ho
  refine ⟨⟨_, rfl, rfl, rfl, rfl, rfl, rfl⟩, (hop.waiting trivial).1, rfl, fun j => ?_⟩
  grind

theorem Inv.remove_spec (h : Inv timer stoppable s)
    (hs : LoopBase.step timer stoppable s (.remove i t fuel) = some s') :
    s'.op = s.op ∧ s'.timers.deadline = s.timers.deadline ∧
      ∀ j, s'.place j = s.place j ∨ s'.place j = .taken t := by
  obtain ⟨-, hs⟩ := Option.ite_none_right_eq_some.1 hs
  obtain ⟨⟨q, b⟩, hq, rfl⟩ := Option.map_eq_some_iff.1 hs
  obtain ⟨S, hS, -⟩ := h.heap
  obtain ⟨-, -, hd⟩ := hS.remove_eq hq
  cases b with
  | false => exact ⟨rfl, hd, fun j => .inl rfl⟩
  | true =>
    refine ⟨rfl, hd, fun j => ?_⟩
    simp only [State.take]
    grind

theorem Inv.step (h : Inv timer stoppable s)
    (hs : LoopBase.step timer stoppable s a = some s') : Inv timer stoppable s' := by
  cases a with
  | op i a =>
    obtain ⟨ha, hs⟩ := Option.ite_none_right_eq_some.1 hs
    exact h.opStep ha hs
  | add i => exact h.add hs
  | remove i t fuel => exact h.remove hs
  | takeReadyTimers now fuel => exact (h.takeReadyTimers hs).1
  | publish t i => exact h.publish hs

/-- The place of an operation that is no timer changes only when its taker publishes it. -/
theorem Inv.place_of_step (h : Inv timer stoppable s)
    (hs : LoopBase.step timer stoppable s a = some s') (hi : timer i = false) :
    s'.place i = s.place i ∨ ∃ t, s.place i = .taken t ∧ s'.place i = .published t := by
  cases a with
  | op j a =>
    obtain ⟨-, hs⟩ := Option.ite_none_right_eq_some.1 hs
    obtain ⟨o, -, rfl⟩ := Option.map_eq_some_iff.1 hs
    exact .inl rfl
  | add j =>
    obtain ⟨⟨ht, -⟩, rfl⟩ := enabled_iff.1 hs
    left
    simp only [State.put]
    grind
  | remove j t fuel =>
    obtain ⟨⟨ht, -⟩, hs⟩ := Option.ite_none_right_eq_some.1 hs
    obtain ⟨⟨q, b⟩, -, rfl⟩ := Option.map_eq_some_iff.1 hs
    left
    cases b <;> simp only [State.take] <;> grind
  | takeReadyTimers now fuel =>
    left
    rw [(h.takeReadyTimers hs).2.2.2, if_neg]
    simp [hi]
  | publish t j =>
    obtain ⟨hj, hs⟩ := Option.ite_none_right_eq_some.1 hs
    have hp := (h.mem t j).1 hj
    obtain ⟨r, hr, rfl⟩ := Option.map_eq_some_iff.1 hs
    obtain ⟨o, -, rfl⟩ := Option.map_eq_some_iff.1 hr
    by_cases hji : i = j
    · subst hji
      exact .inr ⟨t, hp, by simp⟩
    · simp [Function.update_of_ne hji]

/-- Only the return of `do_start()` leaves it. -/
theorem inDoStart_of_step {o : OperationState.State} (hs : OperationState.step b o a = some o')
    (ho : o.start = .inDoStart) (ha : ∀ r, a ≠ .doStartReturns r) : o'.start = .inDoStart := by
  cases a with
  | doStartReturns r => exact absurd rfl (ha r)
  | emplace | arm | armDeferred =>
    obtain ⟨hp, -⟩ := Option.ite_none_right_eq_some.1 hs
    simp [ho] at hp
  | check =>
    simp [OperationState.step, ho] at hs
  | test | testPrevious =>
    simp only [OperationState.step] at hs
    (repeat' split at hs) <;> cases hs <;> exact ho
  | _ =>
    obtain ⟨hp, rfl⟩ := enabled_iff.1 hs
    simp_all

/-- What the steps of a context do to an operation in `do_start()`. -/
theorem Inv.inDoStart_of_step (h : Inv timer stoppable s)
    (hs : LoopBase.step timer stoppable s a = some s') (hi : (s.op i).start = .inDoStart)
    (ha : ∀ r, a ≠ .op i (.doStartReturns r)) : (s'.op i).start = .inDoStart := by
  cases a with
  | op j a =>
    obtain ⟨-, hs⟩ := Option.ite_none_right_eq_some.1 hs
    obtain ⟨o, ho, rfl⟩ := Option.map_eq_some_iff.1 hs
    by_cases hj : i = j
    · subst hj
      simp only [Function.update_self]
      exact LoopBase.inDoStart_of_step ho hi fun r hr => ha r (hr ▸ rfl)
    · simpa [Function.update_of_ne hj] using hi
  | add j =>
    obtain ⟨-, rfl⟩ := enabled_iff.1 hs
    exact hi
  | remove j t fuel =>
    obtain ⟨-, hs⟩ := Option.ite_none_right_eq_some.1 hs
    obtain ⟨⟨q, b⟩, -, rfl⟩ := Option.map_eq_some_iff.1 hs
    cases b <;> exact hi
  | takeReadyTimers now fuel =>
    rw [(h.takeReadyTimers hs).2.1]
    exact hi
  | publish t j =>
    obtain ⟨hj, hs⟩ := Option.ite_none_right_eq_some.1 hs
    obtain ⟨r, hr, rfl⟩ := Option.map_eq_some_iff.1 hs
    obtain ⟨o, ho, rfl⟩ := Option.map_eq_some_iff.1 hr
    by_cases hji : i = j
    · subst hji
      simp only [Function.update_self]
      exact LoopBase.inDoStart_of_step ho hi nofun
    · simpa [Function.update_of_ne hji] using hi

end Coio.LoopBase
