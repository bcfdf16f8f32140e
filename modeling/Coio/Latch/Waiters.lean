import Coio.Latch.Model
import Coio.Lib.Tally

namespace Coio.AsyncLatch
open Transition Linked Tally
set_option autoImplicit true

/-- The waiter that a thread is starting. -/
def Pc.op : Pc ι → Option ι
  | .idle => none
  | .fetchSub _ op | .popAll op | .notify _ op => op
  | .setValue i | .load i | .link i _ | .cas i _ => some i

/-- What a thread is about to subtract. -/
def Pc.owed : Pc ι → Nat
  | .fetchSub n _ => n
  | _ => 0

/-- The node where a thread is in the list that it has popped. -/
def Pc.node : Pc ι → Option ι
  | .notify node _ => node
  | _ => none

/-- A thread between `count_down()` and the end of `push()`. -/
def Pc.Pushing : Pc ι → Prop
  | .load _ | .link _ _ | .cas _ _ => True
  | _ => False

/-- A thread that has seen the counter at zero. -/
def Pc.Zero : Pc ι → Prop
  | .popAll _ | .notify _ _ | .setValue _ => True
  | _ => False

/-- A thread that is about to pop all waiters. -/
def Pc.Popping : Pc ι → Prop
  | .popAll _ => True
  | _ => False

/-- Where a started waiter is. -/
inductive Place (κ : Type v)
  | outside
  | held (k : κ)
  | stacked
  | popped (k : κ)
  deriving DecidableEq, Repr

/-- What the links stand for: the place of each waiter, the stack and the list of each thread. -/
structure View (ι : Type u) (κ : Type v) where
  place : ι → Place κ := fun _ => .outside
  stack : List ι := []
  todo : κ → List ι := fun _ => []

/-- Every waiter has one place, and whoever sees the counter at zero empties the stack. -/
structure Inv [DecidableEq κ] (s : State ι κ) (v : View ι κ) : Prop where
  owed : Total (fun k => (s.pc k).owed) (s.counter - s.budget)
  budget : s.budget ≤ s.counter
  asserts : s.asserts = true
  stack : Chain s.next v.stack s.head.pointer
  todo : ∀ k, Chain s.next (v.todo k) (s.pc k).node
  held : ∀ k i, (s.pc k).op = some i ↔ v.place i = .held k
  stacked : ∀ i, i ∈ v.stack ↔ v.place i = .stacked
  popped : ∀ k i, i ∈ v.todo k ↔ v.place i = .popped k
  nodup : v.stack.Nodup
  nodup_todo : ∀ k, (v.todo k).Nodup
  linked : ∀ k i old, s.pc k = .cas i old → s.next i = old.pointer
  null : s.head = .null → s.counter = 0
  zero : ∀ k, (s.pc k).Zero → s.counter = 0
  pending : s.counter = 0 → (v.stack ≠ [] ∨ ∃ k, (s.pc k).Pushing) →
    s.head = .null ∨ ∃ k, (s.pc k).Popping
  completed : ∀ i, 0 < s.completions i → s.counter = 0
  count : ∀ i, s.starts i = s.completions i + if v.place i = .outside then 0 else 1

variable [DecidableEq κ] {s t : State ι κ} {v : View ι κ}

attribute [local grind =] Function.update_apply Pc.op Pc.owed Pc.node Pc.Pushing Pc.Zero Pc.Popping
  Head.pointer

theorem Inv.init [DecidableEq ι] (n : Nat) : Inv (system ι κ n).init {} := by
  constructor <;> simp [system, Head.pointer, Pc.op, Pc.owed, Pc.node, Pc.Zero, Pc.Pushing, Chain,
    Total.zero]

/-- Moves of a thread that neither pushes afterwards nor was going to pop. -/
theorem Inv.pending_move (h : Inv s v) (hk : ¬ (s.pc k).Popping)
    (hpc : ¬ pc.Pushing ∨ (s.pc k).Pushing)
    (hc : s.counter = 0) (hp : v.stack ≠ [] ∨ ∃ j, (Function.update s.pc k pc j).Pushing) :
    s.head = .null ∨ ∃ j, (Function.update s.pc k pc j).Popping := by
  refine (h.pending hc (hp.imp_right fun he => ?_)).imp_right fun he => exists_update he hk pc
  rcases hpc with hpc | hpc
  · exact exists_of_update he hpc
  · exact ⟨k, hpc⟩

theorem Inv.quiet (h : Inv s v) (hc : s.counter = 0) (hidle : ∀ k, s.pc k = .idle) :
    v.stack = [] ∧ ∀ i, v.place i = .outside := by
  have hstack : v.stack = [] := by
    by_contra hne
    rcases h.pending hc (.inl hne) with hnull | ⟨k, hk⟩
    · have hchain := h.stack
      rw [hnull] at hchain
      exact hne hchain.of_none
    · simp [hidle, Pc.Popping] at hk
  refine ⟨hstack, fun i => ?_⟩
  cases hp : v.place i with
  | outside => rfl
  | held k =>
    have := (h.held k i).2 hp
    simp [hidle, Pc.op] at this
  | stacked =>
    have := (h.stacked i).2 hp
    simp [hstack] at this
  | popped k =>
    have hi := (h.popped k i).2 hp
    have hchain := h.todo k
    rw [hidle] at hchain
    simp [hchain.of_none] at hi

variable [DecidableEq ι]

theorem Inv.countDown (h : Inv s v) (hs : step s (.countDown k n) = some t) : Inv t v := by
  obtain ⟨⟨hk, hn⟩, rfl⟩ := enabled_iff.1 hs
  have hb := h.budget
  exact { h with
    owed := h.owed.update (by simp only [hk, Pc.owed]; omega)
    budget := by dsimp only; omega
    todo := by have := h.todo; grind
    held := by have := h.held; grind
    linked := by have := h.linked; grind
    zero := by have := h.zero; grind
    pending := h.pending_move (by simp [hk, Pc.Popping]) (.inl nofun) }

theorem Inv.start (h : Inv s v) (hs : step s (.start k i n) = some t) : ∃ w, Inv t w := by
  obtain ⟨⟨hk, hn, hi⟩, rfl⟩ := enabled_iff.1 hs
  have hb := h.budget
  have hout : v.place i = .outside := by
    have := h.count i
    grind
  exact ⟨{ v with place := Function.update v.place i (.held k) }, { h with
    owed := h.owed.update (by simp only [hk, Pc.owed]; omega)
    budget := by dsimp only; omega
    todo := by have := h.todo; grind
    held := by have := h.held; grind
    stacked := by have := h.stacked; grind
    popped := by have := h.popped; grind
    linked := by have := h.linked; grind
    zero := by have := h.zero; grind
    pending := h.pending_move (by simp [hk, Pc.Popping]) (.inl nofun)
    count := by have := h.count; grind }⟩

theorem Inv.fetchSub (h : Inv s v) (hs : step s (.fetchSub k n op) = some t) : Inv t v := by
  obtain ⟨hk, rfl⟩ := enabled_iff.1 hs
  have hb := h.budget
  have hn : n ≤ s.counter - s.budget := by
    have := h.owed.le k
    simpa [hk, Pc.owed] using this
  exact { h with
    owed := h.owed.update (by simp only [hk, Pc.owed]; grind)
    budget := by dsimp only; omega
    asserts := by have := h.asserts; grind
    todo := by have := h.todo; grind
    held := by have := h.held; grind
    linked := by have := h.linked; grind
    null := by have := h.null; grind
    zero := by have := h.zero; grind
    pending := fun hc _ => .inr ⟨k, by grind⟩
    completed := by have := h.completed; grind }

theorem Inv.popAll (h : Inv s v) (hs : step s (.popAll k op) = some t) : ∃ w, Inv t w := by
  obtain ⟨hk, rfl⟩ := enabled_iff.1 hs
  have hnil : v.todo k = [] := by
    have := h.todo k
    rw [hk] at this
    exact this.of_none
  exact ⟨{ v with
      place := fun i => if v.place i = .stacked then .popped k else v.place i
      stack := []
      todo := Function.update v.todo k v.stack }, { h with
    owed := h.owed.update (by simp [hk, Pc.owed])
    stack := rfl
    todo := by have := h.todo; have := h.stack; grind
    held := by have := h.held; grind
    stacked := by grind
    popped := fun j x => by
      have := h.popped j x
      have := h.stacked x
      have : x ∉ v.todo k := by simp [hnil]
      grind
    nodup := .nil
    nodup_todo := by have := h.nodup; have := h.nodup_todo; grind
    linked := by have := h.linked; grind
    null := fun _ => h.zero k (by simp [hk, Pc.Zero])
    zero := by have := h.zero; grind
    pending := fun _ _ => .inl rfl
    count := by have := h.count; grind }⟩

theorem Inv.notify (h : Inv s v) (hs : step s (.notify k node op) = some t) : ∃ w, Inv t w := by
  obtain ⟨hk, hs⟩ := Option.ite_none_right_eq_some.1 hs
  have htodo := h.todo k
  rw [hk] at htodo
  cases node with
  | none =>
    refine ⟨v, ?_⟩
    cases op with
    | none =>
      obtain rfl := Option.some.inj hs
      exact { h with
        owed := h.owed.update (by simp [hk, Pc.owed])
        todo := by have := h.todo; grind
        held := by have := h.held; grind
        linked := by have := h.linked; grind
        zero := by have := h.zero; grind
        pending := h.pending_move (by simp [hk, Pc.Popping]) (.inl nofun) }
    | some i =>
      obtain rfl := Option.some.inj hs
      exact { h with
        owed := h.owed.update (by simp [hk, Pc.owed])
        todo := by have := h.todo; grind
        held := by have := h.held; grind
        linked := by have := h.linked; grind
        zero := by have := h.zero; grind
        pending := h.pending_move (by simp [hk, Pc.Popping]) (.inl nofun) }
  | some i =>
    obtain rfl := Option.some.inj hs
    obtain ⟨l, hl, hchain⟩ := htodo.of_some
    have hi : v.place i = .popped k := (h.popped k i).1 (by simp [hl])
    have hn := h.nodup_todo k
    rw [hl] at hn
    exact ⟨{ v with
        place := Function.update v.place i .outside
        todo := Function.update v.todo k l }, { h with
      owed := h.owed.update (by simp [hk, Pc.owed])
      todo := by have := h.todo; grind
      held := by have := h.held; grind
      stacked := by have := h.stacked; grind
      popped := by have := h.popped; grind
      nodup_todo := by have := h.nodup_todo; grind
      linked := by have := h.linked; grind
      zero := by have := h.zero; grind
      pending := h.pending_move (by simp [hk, Pc.Popping]) (.inl nofun)
      completed := fun _ _ => h.zero k (by simp [hk, Pc.Zero])
      count := by have := h.count; grind }⟩

theorem Inv.setValue (h : Inv s v) (hs : step s (.setValue k i) = some t) : ∃ w, Inv t w := by
  obtain ⟨hk, rfl⟩ := enabled_iff.1 hs
  have hi : v.place i = .held k := (h.held k i).1 (by simp [hk, Pc.op])
  exact ⟨{ v with place := Function.update v.place i .outside }, { h with
    owed := h.owed.update (by simp [hk, Pc.owed])
    todo := by have := h.todo; grind
    held := by have := h.held; grind
    stacked := by have := h.stacked; grind
    popped := by have := h.popped; grind
    linked := by have := h.linked; grind
    zero := by have := h.zero; grind
    pending := h.pending_move (by simp [hk, Pc.Popping]) (.inl nofun)
    completed := fun _ _ => h.zero k (by simp [hk, Pc.Zero])
    count := by have := h.count; grind }⟩

theorem Inv.load (h : Inv s v) (hs : step s (.load k i) = some t) : Inv t v := by
  obtain ⟨hk, rfl⟩ := enabled_iff.1 hs
  exact { h with
    owed := h.owed.update (by simp [hk, Pc.owed])
    todo := by have := h.todo; grind
    held := by have := h.held; grind
    linked := by have := h.linked; grind
    zero := by have := h.zero; grind
    pending := h.pending_move (by simp [hk, Pc.Popping]) (.inr (by simp [hk, Pc.Pushing])) }

theorem Inv.link (h : Inv s v) (hs : step s (.link k i old) = some t) : Inv t v := by
  obtain ⟨hk, rfl⟩ := enabled_iff.1 hs
  have hi : v.place i = .held k := (h.held k i).1 (by simp [hk, Pc.op])
  have hstack : i ∉ v.stack := by simp [h.stacked, hi]
  have htodo : ∀ j, i ∉ v.todo j := fun j => by simp [h.popped, hi]
  exact { h with
    owed := h.owed.update (by simp [hk, Pc.owed])
    stack := h.stack.update hstack _
    todo := fun j => by
      have := (h.todo j).update (htodo j) old.pointer
      grind
    held := by have := h.held; grind
    linked := fun j x o hj => by
      have := h.linked j x o
      have := h.held j x
      grind
    zero := by have := h.zero; grind
    pending := h.pending_move (by simp [hk, Pc.Popping]) (.inr (by simp [hk, Pc.Pushing])) }

theorem Inv.cas (h : Inv s v) (hs : step s (.cas k i old spurious) = some t) : ∃ w, Inv t w := by
  obtain ⟨hk, hs⟩ := Option.ite_none_right_eq_some.1 hs
  split at hs
  · rename_i hw
    obtain rfl := Option.some.inj hs
    obtain ⟨rfl, -⟩ := hw
    have hi : v.place i = .held k := (h.held k i).1 (by simp [hk, Pc.op])
    have hstack : i ∉ v.stack := by simp [h.stacked, hi]
    have hnext := h.linked k i _ hk
    exact ⟨{ v with place := Function.update v.place i .stacked, stack := i :: v.stack }, { h with
      owed := h.owed.update (by by_cases hnull : s.head = .null <;> simp [hk, hnull, Pc.owed])
      stack := .cons (by rw [hnext]; exact h.stack)
      todo := by have := h.todo; grind
      held := by have := h.held; grind
      stacked := by have := h.stacked; grind
      popped := by have := h.popped; grind
      nodup := List.nodup_cons.2 ⟨hstack, h.nodup⟩
      linked := by have := h.linked; grind
      null := nofun
      zero := by have := h.zero; have := h.null; grind
      pending := fun hc _ => .inr (by
        by_cases hnull : s.head = .null
        · exact ⟨k, by simp [hnull, Pc.Popping]⟩
        · have hp := h.pending hc (.inr ⟨k, by simp [hk, Pc.Pushing]⟩)
          exact exists_update (hp.resolve_left hnull) (by simp [hk, Pc.Popping]) _)
      count := by have := h.count; grind }⟩
  · obtain rfl := Option.some.inj hs
    exact ⟨v, { h with
      owed := h.owed.update (by simp [hk, Pc.owed])
      todo := by have := h.todo; grind
      held := by have := h.held; grind
      linked := by have := h.linked; grind
      zero := by have := h.zero; grind
      pending := h.pending_move (by simp [hk, Pc.Popping]) (.inr (by simp [hk, Pc.Pushing])) }⟩

theorem Inv.step (h : Inv s v) (hs : step s a = some t) : ∃ w, Inv t w := by
  cases a with
  | countDown k n => exact ⟨v, h.countDown hs⟩
  | start k i n => exact h.start hs
  | fetchSub k n op => exact ⟨v, h.fetchSub hs⟩
  | popAll k op => exact h.popAll hs
  | notify k node op => exact h.notify hs
  | setValue k i => exact h.setValue hs
  | load k i => exact ⟨v, h.load hs⟩
  | link k i old => exact ⟨v, h.link hs⟩
  | cas k i old spurious => exact h.cas hs

theorem Inv.reachable (h : (system ι κ n).Reachable s) : ∃ v, Inv s v :=
  System.Invariant.reachable (I := fun s => ∃ v, Inv s v)
    ⟨⟨{}, .init n⟩, fun _ _ _ _ ⟨_, hv⟩ hs => hv.step hs⟩ h

/-- Every waiter of the latch completes once, not before the counter is zero, and none is left
behind when the calls have returned. -/
theorem latch_waiters (h : (system ι κ n).Reachable s) :
    s.asserts = true ∧
    (∀ i, 0 < s.completions i → s.counter = 0) ∧
    (∀ i, s.completions i ≤ s.starts i ∧ s.starts i ≤ s.completions i + 1) ∧
    (s.counter = 0 → (∀ k, s.pc k = .idle) →
      s.head.pointer = none ∧ ∀ i, s.completions i = s.starts i) := by
  obtain ⟨v, hv⟩ := Inv.reachable h
  refine ⟨hv.asserts, hv.completed, fun i => ?_, fun hc hidle => ?_⟩
  · have := hv.count i
    split at this <;> omega
  · obtain ⟨hstack, hout⟩ := hv.quiet hc hidle
    refine ⟨?_, fun i => ?_⟩
    · rw [hv.stack.head?, hstack]
      rfl
    · have := hv.count i
      rw [if_pos (hout i)] at this
      exact this.symm

/-- Two waiters are pushed after the last `count_down()` has popped the stack. -/
def lateRun : List (Act Nat Nat) :=
  [.start 0 0 0, .fetchSub 0 0 (some 0), .start 1 1 0, .fetchSub 1 0 (some 1), .countDown 2 1,
    .fetchSub 2 1 none, .popAll 2 none, .notify 2 none none, .load 0 0, .link 0 0 .null,
    .cas 0 0 .null false, .load 1 1, .link 1 1 (.node 0), .cas 1 1 (.node 0) false, .popAll 0 none,
    .notify 0 (some 1) none, .notify 0 (some 0) none, .notify 0 none none]

theorem latch_waiters_late : ∃ s, (system Nat Nat 1).exec (system Nat Nat 1).init lateRun = some s ∧
    s.completions 0 = 1 ∧ s.completions 1 = 1 ∧ s.counter = 0 := by
  refine ⟨_, rfl, rfl, rfl, ?_⟩
  exact (latch_waiters ((system Nat Nat 1).reachable_exec lateRun rfl)).2.1 0 Nat.one_pos

end Coio.AsyncLatch
