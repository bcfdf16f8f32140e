import Coio.Lib.Progress
import Coio.Lib.Simulation
import Coio.Mutex.Queue
import Mathlib.Data.List.Nodup

namespace Coio.AsyncMutex
open Transition Linked
set_option autoImplicit true

variable [DecidableEq ι] [DecidableEq κ] {s t : State ι κ} {v w : View ι κ}

/-- What a step is for the clients of the mutex. -/
def State.label (s : State ι κ) : Act ι κ → Option (FairAct (Party ι κ))
  | .guess i => if s.word = .notLocked then some (.acquire (.locker i)) else none
  | .push i old spurious =>
    if s.word = .locked old ∧ spurious = false then some (.enqueue (.locker i)) else none
  | .tryLock k => if s.word = .notLocked then some (.acquire (.tryLocker k)) else none
  | .unlock _ p => some (.release p)
  | .cas _ => if s.word = .locked none then some .abandon else none
  | .complete _ oldHead => some (.pass (.locker oldHead))
  | _ => none

def View.tenure (v : View ι κ) : Tenure (Party ι κ) :=
  match v.holder with
  | none => .free
  | some (.granted i) => .owned (.locker i)
  | some (.owner p) => .owned p
  | some (.unlocking _) => .passing

omit [DecidableEq ι] [DecidableEq κ] in
theorem View.holder_of_passing (h : v.tenure = .passing) : ∃ k, v.holder = some (.unlocking k) := by
  rw [View.tenure] at h
  split at h
  · cases h
  · cases h
  · cases h
  · rename_i k hk
    exact ⟨k, hk⟩

/-- The lock that the links stand for. -/
def View.lock (v : View ι κ) : FairLock (Party ι κ) where
  tenure := v.tenure
  waiting := v.waiters.map .locker

/-- The mutex is the party's: it has been told so, or it is about to be. -/
def State.Owns (s : State ι κ) (p : Party ι κ) : Prop :=
  p ∈ s.owners ∨ ∃ i, p = .locker i ∧ s.start i = .granted

theorem Inv.free_iff (h : Inv s v) : v.tenure = .free ↔ s.word = .notLocked := by
  have hword := h.word
  rw [View.tenure]
  split <;> simp_all

theorem Inv.owned_iff (h : Inv s v) : v.tenure = .owned p ↔ s.Owns p := by
  have howners := h.owners
  have hgranted := h.granted
  rw [View.tenure, State.Owns]
  split <;> simp_all [eq_comm]

theorem Inv.passing_of_unlock (h : Inv s v) (hk : s.unlock k ≠ .idle) : v.tenure = .passing := by
  have hv := (h.holder_of_unlock rfl hk).1
  rw [View.tenure, hv]

theorem Inv.waiters_congr (h : Inv s v) (hw : Inv t w) (hpushes : t.pushes = s.pushes)
    (hhandoffs : t.handoffs = s.handoffs) : w.waiters = v.waiters := by
  have hline := hw.pushes
  rw [hpushes, hhandoffs, h.pushes] at hline
  exact (List.append_cancel_left hline).symm

theorem Inv.tenure_congr (h : Inv s v) (hw : Inv t w)
    (hword : t.word = .notLocked ↔ s.word = .notLocked) (howns : ∀ p, t.Owns p ↔ s.Owns p) :
    w.tenure = v.tenure :=
  Tenure.eq_of_iff (hw.free_iff.trans (hword.trans h.free_iff.symm)) fun p =>
    hw.owned_iff.trans ((howns p).trans h.owned_iff.symm)

omit [DecidableEq ι] [DecidableEq κ] in
theorem State.Owns.congr (howners : t.owners = s.owners)
    (hgranted : ∀ i, t.start i = .granted ↔ s.start i = .granted) (p : Party ι κ) :
    t.Owns p ↔ s.Owns p := by
  simp only [State.Owns, howners, hgranted]

def State.Represents (s : State ι κ) (u : FairLock (Party ι κ)) : Prop := ∃ v, Inv s v ∧ u = v.lock

/-- A step that neither gives the mutex to anybody nor takes it, nor moves the line, is none of the
lock. -/
theorem Inv.stays (h : Inv s v) (hs : AsyncMutex.step s a = some t) (hl : s.label a = none)
    (hword : t.word = .notLocked ↔ s.word = .notLocked) (howns : ∀ p, t.Owns p ↔ s.Owns p)
    (hpushes : t.pushes = s.pushes) (hhandoffs : t.handoffs = s.handoffs) :
    ∃ u, (fairLock (Party ι κ)).exec v.lock (s.label a).toList = some u ∧ t.Represents u := by
  obtain ⟨w, hw⟩ := h.step hs
  refine ⟨v.lock, by rw [hl]; rfl, w, hw, ?_⟩
  rw [View.lock, View.lock, h.tenure_congr hw hword howns, h.waiters_congr hw hpushes hhandoffs]

theorem Inv.moves (h : Inv s v) (hs : AsyncMutex.step s a = some t) (hl : s.label a = some b)
    (hb : ∀ w, Inv t w → (fairLock (Party ι κ)).step v.lock b = some w.lock) :
    ∃ u, (fairLock (Party ι κ)).exec v.lock (s.label a).toList = some u ∧ t.Represents u := by
  obtain ⟨w, hw⟩ := h.step hs
  refine ⟨w.lock, ?_, w, hw, rfl⟩
  rw [hl, Option.toList_some, System.exec, hb w hw]
  rfl

attribute [local grind =] Function.update_apply

/-- Each step of a party is a step of the lock or none. -/
theorem Inv.lock_step (h : Inv s v) (hs : AsyncMutex.step s a = some t) :
    ∃ u, (fairLock (Party ι κ)).exec v.lock (s.label a).toList = some u ∧ t.Represents u := by
  cases a with
  | begin i =>
    obtain ⟨hi, rfl⟩ := enabled_iff.1 hs
    exact h.stays hs rfl .rfl (State.Owns.congr rfl fun j => by grind) rfl rfl
  | guess i =>
    obtain ⟨hi, ht⟩ := Option.ite_none_right_eq_some.1 hs
    split at ht
    · rename_i hfree
      obtain rfl := Option.some.inj ht
      refine h.moves hs (if_pos hfree) fun w hw => ?_
      have howned : w.tenure = .owned (.locker i) :=
        hw.owned_iff.2 (.inr ⟨i, rfl, Function.update_self ..⟩)
      simp [fairLock, View.lock, h.free_iff.2 hfree, howned, h.waiters_congr hw rfl rfl]
    · rename_i old hlocked
      obtain rfl := Option.some.inj ht
      have hfree : s.word ≠ .notLocked := by simp [hlocked]
      exact h.stays hs (if_neg hfree) .rfl (State.Owns.congr rfl fun j => by grind) rfl rfl
  | link i old =>
    obtain ⟨hi, rfl⟩ := enabled_iff.1 hs
    exact h.stays hs rfl .rfl (State.Owns.congr rfl fun j => by grind) rfl rfl
  | push i old spurious =>
    obtain ⟨hi, ht⟩ := Option.ite_none_right_eq_some.1 hs
    split at ht
    · rename_i hpush
      obtain rfl := Option.some.inj ht
      refine h.moves hs (if_pos hpush) fun w hw => ?_
      have hfree : v.tenure ≠ .free := fun hv => by simp [h.free_iff.1 hv] at hpush
      have htenure : w.tenure = v.tenure :=
        h.tenure_congr hw (by simp [hpush.1]) (State.Owns.congr rfl fun j => by grind)
      have hwaiters : w.waiters = v.waiters ++ [i] := by
        have hline := hw.pushes
        simp only [h.pushes, List.append_assoc] at hline
        exact (List.append_cancel_left hline).symm
      simp [fairLock, View.lock, hfree, htenure, hwaiters]
    · rename_i hpush
      obtain rfl := Option.some.inj ht
      exact h.stays hs (if_neg hpush) .rfl (State.Owns.congr rfl fun j => by grind) rfl rfl
  | setValue i =>
    obtain ⟨hi, rfl⟩ := enabled_iff.1 hs
    refine h.stays hs rfl .rfl (fun p => ?_) rfl rfl
    simp only [State.Owns, State.setValue_start]
    have howners : (s.setValue i).owners = .locker i :: s.owners := rfl
    grind
  | tryLock k =>
    by_cases hfree : s.word = .notLocked
    · rw [AsyncMutex.step, if_pos hfree] at hs
      obtain rfl := Option.some.inj hs
      refine h.moves (a := .tryLock k) (if_pos hfree) (if_pos hfree) fun w hw => ?_
      have howned : w.tenure = .owned (.tryLocker k) :=
        hw.owned_iff.2 (.inl (List.mem_cons_self ..))
      simp [fairLock, View.lock, h.free_iff.2 hfree, howned, h.waiters_congr hw rfl rfl]
    · rw [AsyncMutex.step, if_neg hfree] at hs
      obtain rfl := Option.some.inj hs
      exact h.stays (a := .tryLock k) (if_neg hfree) (if_neg hfree) .rfl (fun _ => .rfl) rfl rfl
  | unlock k p =>
    obtain ⟨⟨hp, hk⟩, rfl⟩ := enabled_iff.1 hs
    refine h.moves hs rfl fun w hw => ?_
    have howned : v.tenure = .owned p := h.owned_iff.2 (.inl hp)
    have hpassing : w.tenure = .passing := hw.passing_of_unlock (k := k) (by simp)
    simp [fairLock, View.lock, howned, hpassing, h.waiters_congr hw rfl rfl]
  | load k =>
    obtain ⟨hk, ht⟩ := Option.ite_none_right_eq_some.1 hs
    split at ht <;> obtain rfl := Option.some.inj ht <;>
      exact h.stays hs rfl .rfl (fun _ => .rfl) rfl rfl
  | cas k =>
    obtain ⟨hk, ht⟩ := Option.ite_none_right_eq_some.1 hs
    obtain ⟨hv, hrest, hline, -⟩ := h.holder_of_unlock hk (by simp)
    split at ht
    · rename_i hempty
      obtain rfl := Option.some.inj ht
      refine h.moves hs (if_pos hempty) fun w hw => ?_
      have hpassing : v.tenure = .passing := h.passing_of_unlock (k := k) (by simp [hk])
      have hstack : v.stack = [] := List.head?_eq_none_iff.1 (h.holder_of_word hempty).2
      have hwaiters : v.waiters = [] := by simp [View.waiters, hrest, hline, hstack]
      have hfree : w.tenure = .free := hw.free_iff.2 rfl
      simp [fairLock, View.lock, hpassing, hfree, hwaiters, h.waiters_congr hw rfl rfl]
    · rename_i hempty
      obtain rfl := Option.some.inj ht
      exact h.stays hs (if_neg hempty) .rfl (fun _ => .rfl) rfl rfl
  | exchange k top =>
    obtain ⟨⟨hk, hword⟩, rfl⟩ := enabled_iff.1 hs
    exact h.stays hs rfl (by simp [hword]) (fun _ => .rfl) rfl rfl
  | reverse k current oldHead =>
    obtain ⟨hk, ht⟩ := Option.ite_none_right_eq_some.1 hs
    split at ht <;> obtain rfl := Option.some.inj ht <;>
      exact h.stays hs rfl .rfl (fun _ => .rfl) rfl rfl
  | storeHead k oldHead =>
    obtain ⟨hk, rfl⟩ := enabled_iff.1 hs
    exact h.stays hs rfl .rfl (fun _ => .rfl) rfl rfl
  | complete k oldHead =>
    obtain ⟨hk, rfl⟩ := enabled_iff.1 hs
    obtain ⟨hv, hrest, l, hl, -⟩ := h.holder_of_unlock hk (by simp)
    refine h.moves hs rfl fun w hw => ?_
    have hpassing : v.tenure = .passing := h.passing_of_unlock (k := k) (by simp [hk])
    have howned : w.tenure = .owned (.locker oldHead) :=
      hw.owned_iff.2 (.inl (List.mem_cons_self ..))
    have hfirst : v.waiters = oldHead :: (l ++ v.stack.reverse) := by
      simp [View.waiters, hrest, hl]
    have hwaiters : w.waiters = l ++ v.stack.reverse := by
      have hline := hw.pushes
      have hpushes : (s.setValue oldHead).pushes = s.pushes := rfl
      simp only [hpushes, h.pushes, hfirst, List.append_assoc, List.singleton_append] at hline
      exact (List.cons.inj (List.append_cancel_left hline)).2.symm
    simp [fairLock, View.lock, hpassing, howned, hfirst, hwaiters]

theorem lock_simulation :
    (system ι κ).Simulation (fairLock (Party ι κ)) State.label State.Represents where
  init := ⟨{}, .init, rfl⟩
  step s u a t _ hu hs := by
    obtain ⟨v, hv, rfl⟩ := hu
    exact hv.lock_step hs

section Progress

/-- The operations and the `unlock()` that have begun go on. -/
def Act.Internal : Act ι κ → Prop
  | .begin _ | .tryLock _ | .unlock _ _ => False
  | _ => True

/-- What has begun comes by itself to such a state. -/
def State.Comes (s : State ι κ) (P : State ι κ → Prop) : Prop := (system ι κ).Leads Act.Internal P s

theorem State.Comes.cons {P : State ι κ → Prop} (hs : AsyncMutex.step s a = some t)
    (ha : a.Internal) (h : t.Comes P) : s.Comes P :=
  System.Leads.cons (M := system ι κ) hs ha h

/-- The oldest waiter. -/
def State.first (s : State ι κ) : Option ι := s.pushes[s.handoffs.length]?

theorem Inv.first_eq (h : Inv s v) : s.first = v.waiters.head? := by
  rw [State.first, h.pushes, List.getElem?_append_right (Nat.le_refl _), Nat.sub_self,
    List.head?_eq_getElem?]

theorem comes_of_granted (hi : s.start i = .granted) : s.Comes fun t => .locker i ∈ t.owners :=
  .cons (a := .setValue i) (if_pos hi) trivial (.here (List.mem_cons_self ..))

theorem comes_of_guess (hfree : s.word = .notLocked) (hi : s.start i = .guess) :
    s.Comes fun t => .locker i ∈ t.owners := by
  have hs : AsyncMutex.step s (.guess i) = some
      { s with start := Function.update s.start i .granted, word := .locked none } := by
    simp only [AsyncMutex.step, if_pos hi, hfree]
  exact .cons hs trivial (comes_of_granted (Function.update_self ..))

theorem comes_of_push (hfree : s.word = .notLocked) (hi : s.start i = .push old) :
    s.Comes fun t => .locker i ∈ t.owners := by
  have hs : AsyncMutex.step s (.push i old false) = some
      { s with start := Function.update s.start i .guess } := by
    simp only [AsyncMutex.step, if_pos hi, hfree]
    rfl
  exact .cons hs trivial (comes_of_guess hfree (Function.update_self ..))

theorem comes_of_link (hfree : s.word = .notLocked) (hi : s.start i = .link old) :
    s.Comes fun t => .locker i ∈ t.owners :=
  .cons (a := .link i old) (if_pos hi) trivial (comes_of_push hfree (Function.update_self ..))

/-- While the mutex is free nobody is in line, and each operation that has begun can get it. -/
theorem Inv.comes_of_free (h : Inv s v) (hfree : s.word = .notLocked) (hi : s.start i ≠ .idle) :
    s.Comes fun t => .locker i ∈ t.owners := by
  have hv := h.free_of_word hfree
  cases hpc : s.start i with
  | idle => exact absurd hpc hi
  | guess => exact comes_of_guess hfree hpc
  | link old => exact comes_of_link hfree hpc
  | push old => exact comes_of_push hfree hpc
  | queued =>
    have hwait := (h.queued i).1 hpc
    rw [h.free hv] at hwait
    cases hwait
  | granted => exact comes_of_granted hpc

theorem Inv.comes_of_complete (h : Inv s v) (hk : s.unlock k = .complete oldHead)
    (hfirst : s.first = some i) : s.Comes fun t => .locker i ∈ t.owners := by
  obtain ⟨-, hrest, l, hl, -⟩ := h.holder_of_unlock hk (by simp)
  have hi : oldHead = i := by
    rw [h.first_eq] at hfirst
    simpa [View.waiters, hrest, hl] using hfirst
  subst hi
  exact .cons (a := .complete k oldHead) (if_pos hk) trivial (.here (List.mem_cons_self ..))

theorem Inv.comes_of_storeHead (h : Inv s v) (hk : s.unlock k = .storeHead oldHead)
    (hfirst : s.first = some i) : s.Comes fun t => .locker i ∈ t.owners := by
  obtain ⟨-, -, hline, hne⟩ := h.holder_of_unlock hk (by simp)
  cases oldHead with
  | none => exact absurd hline.of_none hne
  | some o =>
    have hs : AsyncMutex.step s (.storeHead k o) = some
        { s with unlock := Function.update s.unlock k (.complete o), head := s.next o } := if_pos hk
    exact .cons hs trivial ((h.storeHead hs).comes_of_complete (Function.update_self ..) hfirst)

/-- The loop that reverses the waiters ends. -/
theorem Inv.comes_of_reverse (h : Inv s v) (hk : s.unlock k = .reverse current oldHead)
    (hchain : Chain s.next l current) (hl : l.Nodup) (hfirst : s.first = some i) :
    s.Comes fun t => .locker i ∈ t.owners := by
  induction l generalizing s v current oldHead with
  | nil =>
    obtain rfl : current = none := hchain.head?
    have hs : AsyncMutex.step s (.reverse k none oldHead) = some
        { s with unlock := Function.update s.unlock k (.storeHead oldHead) } := if_pos hk
    obtain ⟨w, hw⟩ := h.reverse hs
    exact .cons hs trivial (hw.comes_of_storeHead (Function.update_self ..) hfirst)
  | cons c l ih =>
    obtain rfl : current = some c := hchain.head?
    have hs : AsyncMutex.step s (.reverse k (some c) oldHead) = some
        { s with
          unlock := Function.update s.unlock k (.reverse (s.next c) (some c))
          next := Function.update s.next c oldHead } := if_pos hk
    obtain ⟨w, hw⟩ := h.reverse hs
    obtain ⟨hc, hl⟩ := List.nodup_cons.1 hl
    exact .cons hs trivial (ih hw (Function.update_self ..) (hchain.2.update hc _) hl hfirst)

theorem Inv.nodup_parts (h : Inv s v) : v.rest.Nodup ∧ v.stack.Nodup := by
  have hnodup := h.nodup
  rw [View.waiters, List.append_assoc, List.nodup_append, List.nodup_append] at hnodup
  exact ⟨List.nodup_reverse.1 hnodup.1, List.nodup_reverse.1 hnodup.2.1.2.1⟩

theorem Inv.comes_of_exchange (h : Inv s v) (hk : s.unlock k = .exchange)
    (hfirst : s.first = some i) : s.Comes fun t => .locker i ∈ t.owners := by
  obtain ⟨hv, -⟩ := h.holder_of_unlock hk (by simp)
  have hword : s.word = .locked v.stack.head? := by rw [h.word, if_neg (by simp [hv])]
  have hs : AsyncMutex.step s (.exchange k v.stack.head?) = some
      { s with
        unlock := Function.update s.unlock k (.reverse v.stack.head? none)
        word := .locked none } := if_pos ⟨hk, hword⟩
  obtain ⟨w, hw⟩ := h.exchange hs
  exact .cons hs trivial
    (hw.comes_of_reverse (Function.update_self ..) h.stack h.nodup_parts.2 hfirst)

theorem Inv.comes_of_cas (h : Inv s v) (hk : s.unlock k = .cas) (hfirst : s.first = some i) :
    s.Comes fun t => .locker i ∈ t.owners := by
  obtain ⟨hv, hrest, hline, -⟩ := h.holder_of_unlock hk (by simp)
  have hword : s.word ≠ .locked none := fun hword => by
    have hstack : v.stack = [] := List.head?_eq_none_iff.1 (h.holder_of_word hword).2
    rw [h.first_eq, View.waiters, hrest, hline, hstack] at hfirst
    cases hfirst
  have hs : AsyncMutex.step s (.cas k) = some
      { s with unlock := Function.update s.unlock k .exchange } := by
    simp only [AsyncMutex.step, if_pos hk, if_neg hword]
  obtain ⟨w, hw⟩ := h.cas hs
  exact .cons hs trivial (hw.comes_of_exchange (Function.update_self ..) hfirst)

/-- An `unlock()` that has begun gives the mutex to the oldest waiter. -/
theorem Inv.comes_of_unlock (h : Inv s v) (hk : s.unlock k ≠ .idle) (hfirst : s.first = some i) :
    s.Comes fun t => .locker i ∈ t.owners := by
  cases hpc : s.unlock k with
  | idle => exact absurd hpc hk
  | load =>
    cases hhead : s.head with
    | none =>
      have hs : AsyncMutex.step s (.load k) = some
          { s with unlock := Function.update s.unlock k .cas } := by
        simp only [AsyncMutex.step, if_pos hpc, hhead]
      exact .cons hs trivial ((h.load hs).comes_of_cas (Function.update_self ..) hfirst)
    | some o =>
      have hs : AsyncMutex.step s (.load k) = some
          { s with unlock := Function.update s.unlock k (.storeHead (some o)) } := by
        simp only [AsyncMutex.step, if_pos hpc, hhead]
      exact .cons hs trivial ((h.load hs).comes_of_storeHead (Function.update_self ..) hfirst)
  | cas => exact h.comes_of_cas hpc hfirst
  | exchange => exact h.comes_of_exchange hpc hfirst
  | reverse current oldHead =>
    obtain ⟨-, hrest, -⟩ := h.holder_of_unlock hpc (by simp)
    exact h.comes_of_reverse hpc hrest h.nodup_parts.1 hfirst
  | storeHead oldHead => exact h.comes_of_storeHead hpc hfirst
  | complete oldHead => exact h.comes_of_complete hpc hfirst

theorem Inv.nobody_in_line (h : Inv s v) (hnone : s.first = none) :
    v.rest = [] ∧ v.line = [] ∧ v.stack = [] := by
  rw [h.first_eq, List.head?_eq_none_iff] at hnone
  simp only [View.waiters, List.append_eq_nil_iff, List.reverse_eq_nil_iff] at hnone
  exact ⟨hnone.1.1, hnone.1.2, hnone.2⟩

theorem Inv.comes_of_last_cas (h : Inv s v) (hk : s.unlock k = .cas) (hnone : s.first = none) :
    s.Comes fun t => t.word = .notLocked ∧ t.start = s.start ∧ ∃ w, Inv t w := by
  obtain ⟨hv, -⟩ := h.holder_of_unlock hk (by simp)
  have hword : s.word = .locked none := by
    rw [h.word, (h.nobody_in_line hnone).2.2, if_neg (by simp [hv])]
    exact rfl
  have hs : AsyncMutex.step s (.cas k) = some
      { s with unlock := Function.update s.unlock k .idle, word := .notLocked } := by
    simp only [AsyncMutex.step, if_pos hk, if_pos hword]
  exact .cons hs trivial (.here ⟨rfl, rfl, h.step hs⟩)

/-- Where nobody is in line, an `unlock()` that has begun sets the mutex free. -/
theorem Inv.comes_of_last (h : Inv s v) (hk : s.unlock k ≠ .idle) (hnone : s.first = none) :
    s.Comes fun t => t.word = .notLocked ∧ t.start = s.start ∧ ∃ w, Inv t w := by
  obtain ⟨hv, hu⟩ := h.holder_of_unlock rfl hk
  obtain ⟨hrest, hline, hstack⟩ := h.nobody_in_line hnone
  cases hpc : s.unlock k with
  | load =>
    rw [hpc] at hu
    have hhead : s.head = none := by
      have hchain := hu.2
      rw [hline] at hchain
      exact hchain.head?
    have hs : AsyncMutex.step s (.load k) = some
        { s with unlock := Function.update s.unlock k .cas } := by
      simp only [AsyncMutex.step, if_pos hpc, hhead]
    exact .cons hs trivial ((h.load hs).comes_of_last_cas (Function.update_self ..) hnone)
  | cas => exact h.comes_of_last_cas hpc hnone
  | _ => simp [hpc, UnlockOk, hrest, hline, hstack] at hu

/-- While nobody owns the mutex, the operations inside come to a state in which somebody does. -/
theorem Inv.comes (h : Inv s v) (howners : s.owners = []) (hi : s.start i ≠ .idle) :
    s.Comes fun t => t.owners ≠ [] := by
  have hown : ∀ {t : State ι κ} {j}, (t.Comes fun t => .locker j ∈ t.owners) →
      t.Comes fun t => t.owners ≠ [] := fun ht =>
    System.Leads.trans ht fun _ hj => .here (List.ne_nil_of_mem hj)
  have hholder := h.owners
  rw [howners] at hholder
  cases hv : v.holder with
  | none =>
    have hword := h.word
    rw [if_pos hv] at hword
    exact hown (h.comes_of_free hword hi)
  | some holder =>
    cases holder with
    | granted j => exact hown (comes_of_granted ((h.granted j).2 hv))
    | owner p =>
      rw [hv] at hholder
      cases hholder
    | unlocking k =>
      have hk : s.unlock k ≠ .idle := fun hk => by
        have hu := h.unlocking k hv
        rwa [hk] at hu
      cases hfirst : s.first with
      | some j => exact hown (h.comes_of_unlock hk hfirst)
      | none =>
        refine System.Leads.trans (h.comes_of_last hk hfirst) fun t ht => ?_
        obtain ⟨hword, hstart, w, hw⟩ := ht
        exact hown (hw.comes_of_free hword (by rwa [hstart]))

end Progress

/-- The mutex is a lock that is first come, first served, and nobody is left behind in it: while
nobody owns it, what has begun comes by itself to a state in which somebody does, and an `unlock()`
that has begun to one in which the oldest waiter does. -/
theorem mutex_fair (he : (system ι κ).exec (system ι κ).init as = some s) :
    ∃ u, (fairLock (Party ι κ)).exec (fairLock (Party ι κ)).init
        ((system ι κ).labels State.label (system ι κ).init as) = some u ∧
      (∀ p ∈ s.owners, u.tenure = .owned p) ∧
      (∀ i, s.start i = .queued ↔ .locker i ∈ u.waiting) ∧
      (s.owners = [] → ∀ i, s.start i ≠ .idle → s.Comes fun t => t.owners ≠ []) ∧
      ∀ p ps, u = ⟨.passing, p :: ps⟩ → s.Comes fun t => p ∈ t.owners := by
  obtain ⟨u, hu, v, hv, rfl⟩ := lock_simulation.run he
  refine ⟨v.lock, hu, fun p hp => hv.owned_iff.2 (.inl hp), fun i => ?_,
    fun howners i hi => hv.comes howners hi, fun p ps hpassing => ?_⟩
  · rw [hv.queued, View.lock, List.mem_map]
    refine ⟨fun hi => ⟨i, hi, rfl⟩, fun hi => ?_⟩
    obtain ⟨j, hj, hji⟩ := hi
    obtain rfl := Party.locker.inj hji
    exact hj
  · obtain ⟨htenure, hwaiting⟩ := FairLock.mk.inj hpassing
    obtain ⟨i, is, hwaiters, rfl, -⟩ := List.map_eq_cons_iff.1 hwaiting
    have hfirst : s.first = some i := by rw [hv.first_eq, hwaiters, List.head?_cons]
    obtain ⟨k, hk⟩ := View.holder_of_passing htenure
    have hk : s.unlock k ≠ .idle := fun hidle => by
      have hu := hv.unlocking k hk
      rwa [hidle] at hu
    exact hv.comes_of_unlock hk hfirst

/-- Two operations wait for the thread that has the mutex, and it has just drained them. -/
def passRun : List (Act Nat Nat) :=
  [.tryLock 0, .begin 1, .guess 1, .link 1 none, .push 1 none false, .begin 2, .guess 2,
    .link 2 (some 1), .push 2 (some 1) false, .unlock 0 (.tryLocker 0), .load 0, .cas 0,
    .exchange 0 (some 2)]

theorem mutex_fair_pass : ∃ s, (system Nat Nat).exec (system Nat Nat).init passRun = some s ∧
    s.Comes fun t => .locker 1 ∈ t.owners := by
  have hrun : ((system Nat Nat).exec (system Nat Nat).init passRun).isSome = true := rfl
  have hlock : (fairLock (Party Nat Nat)).exec (fairLock (Party Nat Nat)).init
      ((system Nat Nat).labels State.label (system Nat Nat).init passRun) =
        some ⟨.passing, [.locker 1, .locker 2]⟩ := by decide +kernel
  obtain ⟨s, hs⟩ := Option.isSome_iff_exists.1 hrun
  obtain ⟨u, hu, -, -, -, hpass⟩ := mutex_fair hs
  exact ⟨s, hs, hpass _ _ (Option.some.inj (hu.symm.trans hlock))⟩

end Coio.AsyncMutex
