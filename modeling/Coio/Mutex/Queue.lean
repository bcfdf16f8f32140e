import Coio.Mutex.Model

namespace Coio.AsyncMutex
open Transition Linked
set_option autoImplicit true

/-- Who has the mutex. -/
inductive Holder (ι : Type u) (κ : Type v)
  | granted (i : ι)
  | owner (p : Party ι κ)
  | unlocking (k : κ)
  deriving DecidableEq, Repr

/-- What the links stand for: the holder, the waiters in `head_` and in the local list of `unlock()`
from the oldest to the newest, the waiters that `unlock()` has still to reverse and the waiters in
`state_` from the newest to the oldest. -/
structure View (ι : Type u) (κ : Type v) where
  holder : Option (Holder ι κ) := none
  line : List ι := []
  rest : List ι := []
  stack : List ι := []

/-- The waiters from the oldest to the newest. -/
def View.waiters (v : View ι κ) : List ι := v.rest.reverse ++ v.line ++ v.stack.reverse

/-- What the locals of `unlock()` stand for. -/
def UnlockOk (s : State ι κ) (v : View ι κ) : UnlockPc ι → Prop
  | .idle => False
  | .load => v.rest = [] ∧ Chain s.next v.line s.head
  | .cas => v.rest = [] ∧ v.line = [] ∧ s.head = none
  | .exchange => v.rest = [] ∧ v.line = [] ∧ v.stack ≠ []
  | .reverse current oldHead =>
    Chain s.next v.rest current ∧ Chain s.next v.line oldHead ∧ v.line ++ v.rest ≠ []
  | .storeHead oldHead => v.rest = [] ∧ Chain s.next v.line oldHead ∧ v.line ≠ []
  | .complete oldHead => v.rest = [] ∧ ∃ l, v.line = oldHead :: l ∧ Chain s.next l s.head

/-- The state of the mutex is a holder with a queue of waiters. -/
structure Inv [DecidableEq ι] [DecidableEq κ] (s : State ι κ) (v : View ι κ) : Prop where
  word : s.word = if v.holder = none then .notLocked else .locked v.stack.head?
  stack : Chain s.next v.stack v.stack.head?
  free : v.holder = none → v.waiters = []
  settled : (∀ k, v.holder ≠ some (.unlocking k)) → v.rest = [] ∧ Chain s.next v.line s.head
  unlocking : ∀ k, v.holder = some (.unlocking k) → UnlockOk s v (s.unlock k)
  idle : ∀ k, v.holder ≠ some (.unlocking k) → s.unlock k = .idle
  owners : s.owners = match v.holder with
    | some (.owner p) => [p]
    | _ => []
  granted : ∀ i, s.start i = .granted ↔ v.holder = some (.granted i)
  queued : ∀ i, s.start i = .queued ↔ i ∈ v.waiters
  linked : ∀ i old, s.start i = .push old → s.next i = old
  nodup : v.waiters.Nodup
  pushes : s.pushes = s.handoffs ++ v.waiters
  count : ∀ i, s.starts i = s.completions i + if s.start i = .idle then 0 else 1

/-- The locals only concern the drained waiters and whether there are others. -/
theorem UnlockOk.congr {s t : State ι κ} {v w : View ι κ} (h : UnlockOk s v pc)
    (hn : ∀ i ∈ v.rest ++ v.line, t.next i = s.next i) (hh : t.head = s.head)
    (hl : w.line = v.line) (hr : w.rest = v.rest) (hs : v.stack ≠ [] → w.stack ≠ []) :
    UnlockOk t w pc := by
  have hline : ∀ i ∈ v.line, t.next i = s.next i := fun i hi => hn i (List.mem_append_right _ hi)
  have hrest : ∀ i ∈ v.rest, t.next i = s.next i := fun i hi => hn i (List.mem_append_left _ hi)
  cases pc <;> simp only [UnlockOk, hl, hr, hh] at h ⊢
  case load => exact ⟨h.1, h.2.frame hline⟩
  case cas => exact h
  case exchange => exact ⟨h.1, h.2.1, hs h.2.2⟩
  case reverse c o => exact ⟨h.1.frame hrest, h.2.1.frame hline, h.2.2⟩
  case storeHead o => exact ⟨h.1, h.2.1.frame hline, h.2.2⟩
  case complete o =>
    obtain ⟨hr, l, hl, hc⟩ := h
    exact ⟨hr, l, hl, hc.frame fun i hi => hline i (by simp [hl, hi])⟩

variable [DecidableEq ι] [DecidableEq κ] {s t : State ι κ} {v : View ι κ}

attribute [local grind =] Function.update_apply

theorem Inv.init : Inv ({} : State ι κ) {} := by
  constructor <;> simp [View.waiters, Chain]

theorem Inv.holder_of_word (h : Inv s v) (hw : s.word = .locked top) :
    v.holder ≠ none ∧ v.stack.head? = top := by
  have := h.word
  grind

theorem Inv.free_of_word (h : Inv s v) (hw : s.word = .notLocked) : v.holder = none := by
  have := h.word
  grind

theorem Inv.holder_of_unlock (h : Inv s v) (hk : s.unlock k = pc) (hpc : pc ≠ .idle) :
    v.holder = some (.unlocking k) ∧ UnlockOk s v pc := by
  have hv : v.holder = some (.unlocking k) := by
    by_contra hv
    exact hpc (hk.symm.trans (h.idle k hv))
  exact ⟨hv, hk ▸ h.unlocking k hv⟩

/-- `start()` moves on without entering or leaving the queue. -/
theorem Inv.begin (h : Inv s v) (hs : step s (.begin i) = some t) : Inv t v := by
  obtain ⟨hp, rfl⟩ := enabled_iff.1 hs
  exact { h with
    unlocking := fun k hk => (h.unlocking k hk).congr (fun _ _ => rfl) rfl rfl rfl id
    granted := by have := h.granted; grind
    queued := by have := h.queued; grind
    linked := by have := h.linked; grind
    count := by have := h.count; grind }

theorem Inv.guess (h : Inv s v) (hs : step s (.guess i) = some t) : ∃ w, Inv t w := by
  obtain ⟨hp, hs⟩ := Option.ite_none_right_eq_some.1 hs
  split at hs
  · rename_i hw
    obtain rfl := Option.some.inj hs
    have hv := h.free_of_word hw
    have hfree := h.free hv
    simp only [View.waiters, List.append_eq_nil_iff, List.reverse_eq_nil_iff] at hfree
    refine ⟨{ v with holder := some (.granted i) }, { h with
      word := by simp [hfree]
      free := nofun
      settled := fun _ => h.settled (by simp [hv])
      unlocking := nofun
      idle := fun k _ => h.idle k (by simp [hv])
      owners := by have := h.owners; grind
      granted := by have := h.granted; grind
      queued := fun j => ?_
      linked := by have := h.linked; grind
      count := by have := h.count; grind }⟩
    have hq := h.queued j
    simp only [View.waiters] at hq ⊢
    grind
  · rename_i old hw
    obtain rfl := Option.some.inj hs
    exact ⟨v, { h with
      unlocking := fun k hk => (h.unlocking k hk).congr (fun _ _ => rfl) rfl rfl rfl id
      granted := by have := h.granted; grind
      queued := by have := h.queued; grind
      linked := by have := h.linked; grind
      count := by have := h.count; grind }⟩

theorem Inv.link (h : Inv s v) (hs : step s (.link i old) = some t) : Inv t v := by
  obtain ⟨hp, rfl⟩ := enabled_iff.1 hs
  have hi : ∀ j ∈ v.waiters, Function.update s.next i old j = s.next j := by
    have := h.queued
    grind
  simp only [View.waiters, List.mem_append, List.mem_reverse] at hi
  exact { h with
    stack := h.stack.frame fun j hj => hi j (.inr hj)
    settled := fun hk =>
      ⟨(h.settled hk).1, (h.settled hk).2.frame fun j hj => hi j (.inl (.inr hj))⟩
    unlocking := fun k hk => (h.unlocking k hk).congr
      (fun j hj => hi j (.inl (List.mem_append.1 hj))) rfl rfl rfl id
    granted := by have := h.granted; grind
    queued := by have := h.queued; grind
    linked := by have := h.linked; grind
    count := by have := h.count; grind }

theorem Inv.push (h : Inv s v) (hs : step s (.push i old spurious) = some t) : ∃ w, Inv t w := by
  obtain ⟨hp, hs⟩ := Option.ite_none_right_eq_some.1 hs
  split at hs
  · rename_i hw
    obtain rfl := Option.some.inj hs
    obtain ⟨hv, htop⟩ := h.holder_of_word hw.1
    have hi : i ∉ v.waiters := by
      rw [← h.queued, hp]
      simp
    have hwait : ({ v with stack := i :: v.stack } : View ι κ).waiters = v.waiters ++ [i] := by
      simp [View.waiters]
    have hq := h.queued
    refine ⟨{ v with stack := i :: v.stack }, { h with
      word := by simp [hv]
      stack := .cons ?_
      free := fun hn => absurd hn hv
      unlocking := fun k hk => (h.unlocking k hk).congr (fun _ _ => rfl) rfl rfl rfl (by simp)
      granted := by have := h.granted; grind
      queued := fun j => ?_
      linked := by have := h.linked; grind
      nodup := ?_
      pushes := by rw [hwait, h.pushes, List.append_assoc]
      count := by have := h.count; grind }⟩
    · rw [h.linked i old hp, ← htop]
      exact h.stack
    · rw [hwait]
      grind
    · rw [hwait]
      exact List.nodup_append.2 ⟨h.nodup, by simp, by grind⟩
  · obtain rfl := Option.some.inj hs
    exact ⟨v, { h with
      unlocking := fun k hk => (h.unlocking k hk).congr (fun _ _ => rfl) rfl rfl rfl id
      granted := by have := h.granted; grind
      queued := by have := h.queued; grind
      linked := by have := h.linked; grind
      count := by have := h.count; grind }⟩

theorem Inv.setValue (h : Inv s v) (hs : step s (.setValue i) = some t) : ∃ w, Inv t w := by
  obtain ⟨hp, rfl⟩ := enabled_iff.1 hs
  have hv := (h.granted i).1 hp
  refine ⟨{ v with holder := some (.owner (.locker i)) }, { h with
    word := by have := h.word; grind [State.setValue]
    free := nofun
    settled := fun _ => h.settled (by simp [hv])
    unlocking := nofun
    idle := fun k _ => h.idle k (by simp [hv])
    owners := by have := h.owners; grind [State.setValue]
    granted := by have := h.granted; grind
    queued := fun j => ?_
    linked := fun j old hj => h.linked j old (by grind)
    count := by have := h.count; have : (s.setValue i).starts = s.starts := rfl; grind }⟩
  have hq := h.queued j
  simp only [View.waiters] at hq ⊢
  grind

theorem Inv.tryLock (h : Inv s v) (hs : step s (.tryLock k) = some t) : ∃ w, Inv t w := by
  simp only [step] at hs
  split at hs
  · rename_i hw
    obtain rfl := Option.some.inj hs
    have hv := h.free_of_word hw
    have hfree := h.free hv
    simp only [View.waiters, List.append_eq_nil_iff, List.reverse_eq_nil_iff] at hfree
    refine ⟨{ v with holder := some (.owner (.tryLocker k)) }, { h with
      word := by simp [hfree]
      free := nofun
      settled := fun _ => h.settled (by simp [hv])
      unlocking := nofun
      idle := fun k _ => h.idle k (by simp [hv])
      owners := by have := h.owners; grind
      granted := by have := h.granted; grind }⟩
  · obtain rfl := Option.some.inj hs
    exact ⟨v, h⟩

theorem Inv.unlock (h : Inv s v) (hs : step s (.unlock k p) = some t) : ∃ w, Inv t w := by
  obtain ⟨⟨hp, hk⟩, rfl⟩ := enabled_iff.1 hs
  have howners := h.owners
  have hv : v.holder = some (.owner p) ∧ s.owners = [p] := by grind
  obtain ⟨hv, hown⟩ := hv
  have hsettled := h.settled (by simp [hv])
  exact ⟨{ v with holder := some (.unlocking k) }, { h with
    word := by have := h.word; grind
    free := nofun
    settled := fun hn => absurd rfl (hn k)
    unlocking := fun k' hk' => by
      cases hk'
      simp only [Function.update_self]
      exact hsettled
    idle := by have := h.idle; grind
    owners := by simp [hown]
    granted := by have := h.granted; grind }⟩

theorem Inv.load (h : Inv s v) (hs : step s (.load k) = some t) : Inv t v := by
  obtain ⟨hp, hs⟩ := Option.ite_none_right_eq_some.1 hs
  obtain ⟨hv, hrest, hline⟩ := h.holder_of_unlock hp nofun
  split at hs
  · rename_i hhead
    obtain rfl := Option.some.inj hs
    exact { h with
      unlocking := fun k' hk' => by
        obtain rfl : k = k' := by simpa [hv] using hk'
        simp only [Function.update_self]
        exact ⟨hrest, (hhead ▸ hline).of_none, hhead⟩
      idle := by have := h.idle; grind }
  · rename_i o hhead
    obtain rfl := Option.some.inj hs
    exact { h with
      unlocking := fun k' hk' => by
        obtain rfl : k = k' := by simpa [hv] using hk'
        simp only [Function.update_self]
        rw [hhead] at hline
        obtain ⟨l, hl, -⟩ := hline.of_some
        exact ⟨hrest, hline, by simp [hl]⟩
      idle := by have := h.idle; grind }

theorem Inv.cas (h : Inv s v) (hs : step s (.cas k) = some t) : ∃ w, Inv t w := by
  obtain ⟨hp, hs⟩ := Option.ite_none_right_eq_some.1 hs
  obtain ⟨hv, hrest, hline, hhead⟩ := h.holder_of_unlock hp nofun
  split at hs
  · rename_i hw
    obtain rfl := Option.some.inj hs
    have hst : v.stack = [] := List.head?_eq_none_iff.1 (h.holder_of_word hw).2
    have hempty : v.waiters = [] := by simp [View.waiters, hrest, hline, hst]
    have hempty' : ({} : View ι κ).waiters = [] := rfl
    exact ⟨{}, { h with
      word := rfl
      stack := rfl
      free := fun _ => rfl
      settled := fun _ => ⟨rfl, hhead⟩
      unlocking := nofun
      idle := by have := h.idle; grind
      owners := by have := h.owners; grind
      granted := by have := h.granted; grind
      queued := by have := h.queued; grind
      nodup := .nil
      pushes := by rw [hempty', ← hempty]; exact h.pushes }⟩
  · rename_i hw
    obtain rfl := Option.some.inj hs
    exact ⟨v, { h with
      unlocking := fun k' hk' => by
        obtain rfl : k = k' := by simpa [hv] using hk'
        simp only [Function.update_self]
        refine ⟨hrest, hline, fun hst => hw ?_⟩
        rw [h.word, hst, if_neg (by simp [hv])]
        rfl
      idle := by have := h.idle; grind }⟩

theorem Inv.exchange (h : Inv s v) (hs : step s (.exchange k top) = some t) : ∃ w, Inv t w := by
  obtain ⟨⟨hp, hw⟩, rfl⟩ := enabled_iff.1 hs
  obtain ⟨hv, hrest, hline, hst⟩ := h.holder_of_unlock hp nofun
  obtain ⟨-, rfl⟩ := h.holder_of_word hw
  have hwait : ({ v with rest := v.stack, stack := [] } : View ι κ).waiters = v.waiters := by
    simp [View.waiters, hrest, hline]
  exact ⟨{ v with rest := v.stack, stack := [] }, { h with
    word := by simp [hv]
    stack := rfl
    free := fun hn => by simp [hv] at hn
    settled := fun hn => absurd hv (hn k)
    unlocking := fun k' hk' => by
      obtain rfl : k = k' := by simpa [hv] using hk'
      simp only [Function.update_self]
      exact ⟨h.stack, by rw [show v.line = [] from hline]; rfl, by simp [hst]⟩
    idle := by have := h.idle; grind
    queued := by rw [hwait]; exact h.queued
    nodup := by rw [hwait]; exact h.nodup
    pushes := by rw [hwait]; exact h.pushes }⟩

/-- One iteration of the reversing loop moves a waiter to the front of the local list. -/
theorem Inv.reverse (h : Inv s v) (hs : step s (.reverse k current oldHead) = some t) :
    ∃ w, Inv t w := by
  obtain ⟨hp, hs⟩ := Option.ite_none_right_eq_some.1 hs
  obtain ⟨hv, hrest, hline, hne⟩ := h.holder_of_unlock hp nofun
  cases current with
  | none =>
    obtain rfl := Option.some.inj hs
    have hr := hrest.of_none
    exact ⟨v, { h with
      unlocking := fun k' hk' => by
        obtain rfl : k = k' := by simpa [hv] using hk'
        simp only [Function.update_self]
        exact ⟨hr, hline, by simpa [hr] using hne⟩
      idle := by have := h.idle; grind }⟩
  | some c =>
    obtain rfl := Option.some.inj hs
    obtain ⟨r, hr, hrest⟩ := hrest.of_some
    have hwait : ({ v with line := c :: v.line, rest := r } : View ι κ).waiters = v.waiters := by
      simp [View.waiters, hr]
    have hn := h.nodup
    simp only [View.waiters, hr, List.reverse_cons, List.append_assoc, List.nodup_append,
      List.nodup_cons, List.mem_append, List.mem_reverse, List.mem_singleton] at hn
    have hcs : c ∉ v.stack := by grind
    have hcl : c ∉ v.line := by grind
    have hcr : c ∉ r := by grind
    exact ⟨{ v with line := c :: v.line, rest := r }, { h with
      stack := h.stack.update hcs _
      free := fun hn => by simp [hv] at hn
      settled := fun hn => absurd hv (hn k)
      unlocking := fun k' hk' => by
        obtain rfl : k = k' := by simpa [hv] using hk'
        simp only [Function.update_self]
        exact ⟨hrest.update hcr _, hline.push hcl, by simp⟩
      idle := by have := h.idle; grind
      queued := by rw [hwait]; exact h.queued
      linked := fun j old hj => by
        have := (h.queued c).2 (by simp [View.waiters, hr])
        have := h.linked j old hj
        grind
      nodup := by rw [hwait]; exact h.nodup
      pushes := by rw [hwait]; exact h.pushes }⟩

theorem Inv.storeHead (h : Inv s v) (hs : step s (.storeHead k oldHead) = some t) : Inv t v := by
  obtain ⟨hp, rfl⟩ := enabled_iff.1 hs
  obtain ⟨hv, hrest, hline, -⟩ := h.holder_of_unlock hp nofun
  obtain ⟨l, hl, hline⟩ := hline.of_some
  exact { h with
    settled := fun hn => absurd hv (hn k)
    unlocking := fun k' hk' => by
      obtain rfl : k = k' := by simpa [hv] using hk'
      simp only [Function.update_self]
      exact ⟨hrest, l, hl, hline⟩
    idle := by have := h.idle; grind }

/-- The mutex is handed to the oldest waiter. -/
theorem Inv.complete (h : Inv s v) (hs : step s (.complete k oldHead) = some t) :
    ∃ w, Inv t w := by
  obtain ⟨hp, rfl⟩ := enabled_iff.1 hs
  obtain ⟨hv, hrest, l, hl, hline⟩ := h.holder_of_unlock hp nofun
  have hwait : v.waiters = oldHead ::
      ({ v with line := l, holder := some (.owner (.locker oldHead)) } : View ι κ).waiters := by
    simp [View.waiters, hrest, hl]
  have hn := h.nodup
  have hq := h.queued
  simp only [hwait, List.nodup_cons, List.mem_cons] at hn hq
  refine ⟨{ v with line := l, holder := some (.owner (.locker oldHead)) }, { h with
    word := h.word.trans (by simp [hv])
    free := nofun
    settled := fun _ => ⟨hrest, hline⟩
    unlocking := nofun
    idle := by have := h.idle; grind
    owners := by have := h.owners; grind [State.setValue]
    granted := fun j => ?_
    queued := fun j => ?_
    linked := fun j old hj => h.linked j old (by grind)
    nodup := hn.2
    pushes := ?_
    count := fun j => ?_ }⟩
  · have := h.granted j
    grind
  · have := hq j
    grind
  · have := h.pushes
    rw [hwait] at this
    exact this.trans (by simp)
  · have := h.count j
    have := hq j
    have : (s.setValue oldHead).starts = s.starts := rfl
    grind

theorem Inv.step (h : Inv s v) (hs : step s a = some t) : ∃ w, Inv t w := by
  cases a with
  | begin i => exact ⟨v, h.begin hs⟩
  | guess i => exact h.guess hs
  | link i old => exact ⟨v, h.link hs⟩
  | push i old spurious => exact h.push hs
  | setValue i => exact h.setValue hs
  | tryLock k => exact h.tryLock hs
  | unlock k p => exact h.unlock hs
  | load k => exact ⟨v, h.load hs⟩
  | cas k => exact h.cas hs
  | exchange k top => exact h.exchange hs
  | reverse k c o => exact h.reverse hs
  | storeHead k o => exact ⟨v, h.storeHead hs⟩
  | complete k o => exact h.complete hs

theorem Inv.reachable (h : (system ι κ).Reachable s) : ∃ v, Inv s v :=
  System.Invariant.reachable (I := fun s => ∃ v, Inv s v)
    ⟨⟨{}, .init⟩, fun _ _ _ _ ⟨_, hv⟩ hs => hv.step hs⟩ h

end Coio.AsyncMutex
