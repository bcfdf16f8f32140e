import Coio.Lib.Linked
import Coio.Lib.Tally
import Coio.ObjectPool.Model

namespace Coio.ObjectPool
open Transition Tally Linked
set_option autoImplicit true

def Pc.Locked : Pc ν → Prop
  | .test | .take | .unlockTaken _ | .unlockEmpty | .exchange _ | .store _ _
  | .unlockReleased => True
  | _ => False

/-- The thread has the object, which is in the free list from `exchange` on. -/
def Pc.holds [DecidableEq ν] (x : ν) : Pc ν → Nat
  | .unlockTaken y | .returned y | .lockRelease y | .exchange y => if y = x then 1 else 0
  | _ => 0

/-- The invariant of a pool whose free list is `free`. -/
structure Inv [DecidableEq ν] (s : State ν κ) (free : List ν) : Prop where
  lock : ∀ k, s.lock_ = some k ↔ (s.pc k).Locked
  chain : (∀ k x old, s.pc k ≠ .store x old) → Chain s.next free s.free_list_
  store : ∀ k x old, s.pc k = .store x old →
    s.free_list_ = some x ∧ ∃ l, free = x :: l ∧ Chain s.next l old
  take : ∀ k, s.pc k = .take → s.free_list_ ≠ none
  count : ∀ x, ∃ n, Total (fun k => (s.pc k).holds x) n ∧
    free.count x + s.handed x + n = if x ∈ s.live then 1 else 0

variable [DecidableEq ν] {s t : State ν κ} {free : List ν}

attribute [local grind =] Function.update_apply Pc.Locked Pc.holds Pc.locked Pc.unlocked

theorem Inv.init [DecidableEq κ] : Inv (system ν κ).init [] where
  lock := by simp [system, Pc.Locked]
  chain _ := rfl
  store := by simp [system]
  take := by simp [system]
  count _ := ⟨0, .zero, by simp [system]⟩

theorem Inv.nodup (h : Inv s free) : free.Nodup := by
  refine List.nodup_iff_count_le_one.2 fun x => ?_
  obtain ⟨n, -, hn⟩ := h.count x
  split at hn <;> omega

/-- An object that somebody has is not in the free list. -/
theorem Inv.notMem (h : Inv s free) (hx : 0 < s.handed x ∨ ∃ k, 0 < (s.pc k).holds x) :
    x ∉ free := by
  obtain ⟨n, htotal, hn⟩ := h.count x
  intro hmem
  have := List.count_pos_iff.2 hmem
  rcases hx with hx | ⟨k, hk⟩
  · split at hn <;> omega
  · have hle : (s.pc k).holds x ≤ n := htotal.le k
    split at hn <;> omega

/-- While no thread is between the two writes of `release()` the free list is linked. -/
theorem Inv.chain_of_locked (h : Inv s free) (hk : (s.pc k).Locked)
    (hs : ∀ x old, s.pc k ≠ .store x old) : Chain s.next free s.free_list_ := by
  refine h.chain fun j x old hj => ?_
  have hlk := (h.lock k).2 hk
  have hlj := (h.lock j).2 (by simp [hj, Pc.Locked])
  obtain rfl : k = j := Option.some.inj (hlk.symm.trans hlj)
  exact hs x old hj

variable [DecidableEq κ]

/-- The objects after a step of one thread. -/
theorem Inv.count_update {free' : List ν} {handed' : ν → Nat} {live' : List ν} (h : Inv s free)
    (hn : ∀ x, free'.count x + handed' x + pc.holds x + (if x ∈ s.live then 1 else 0) =
      free.count x + s.handed x + (s.pc k).holds x + if x ∈ live' then 1 else 0) (x : ν) :
    ∃ n, Total (fun j => (Function.update s.pc k pc j).holds x) n ∧
      free'.count x + handed' x + n = if x ∈ live' then 1 else 0 := by
  obtain ⟨n, htotal, hcount⟩ := h.count x
  have hle : (s.pc k).holds x ≤ n := htotal.le k
  have := hn x
  exact ⟨n + pc.holds x - (s.pc k).holds x, htotal.update (f := Pc.holds x) (by omega), by omega⟩

/-- A move of a thread that leaves the objects where they are. -/
theorem Inv.move (h : Inv s free) (hl : ∀ j, l = some j ↔ (Function.update s.pc k pc j).Locked)
    (hp : ∀ x, pc.holds x = (s.pc k).holds x)
    (hs : ∀ x old, s.pc k ≠ .store x old ∧ pc ≠ .store x old)
    (ht : pc = .take → s.free_list_ ≠ none) :
    Inv { s with lock_ := l, pc := Function.update s.pc k pc } free where
  lock := hl
  chain hno := h.chain fun j x old hj => hno j x old (by have := hs x old; grind)
  store := by have := h.store; grind
  take := by have := h.take; grind
  count := h.count_update fun x => by rw [hp]

theorem Inv.acquire (h : Inv s free) (hs : step s (.acquire k) = some t) : Inv t free := by
  obtain ⟨hk, rfl⟩ := enabled_iff.1 hs
  exact h.move (by have := h.lock; grind) (by grind) (by grind) (by grind)

theorem Inv.lockStep (h : Inv s free) (hs : step s (.lock k) = some t) : Inv t free := by
  simp only [step] at hs
  split at hs
  · rename_i pc hpc
    obtain ⟨hm, rfl⟩ := enabled_iff.1 hs
    have hcases : (s.pc k = .lockAcquire ∧ pc = .test) ∨
        ∃ obj, s.pc k = .lockRelease obj ∧ pc = .exchange obj := by
      cases hk : s.pc k <;> simp_all [Pc.locked]
    refine h.move ?_ ?_ ?_ ?_
    · have := h.lock
      grind
    all_goals rcases hcases with ⟨hk, rfl⟩ | ⟨obj, hk, rfl⟩ <;> grind
  · cases hs

theorem Inv.test (h : Inv s free) (hs : step s (.test k) = some t) : Inv t free := by
  obtain ⟨hk, rfl⟩ := enabled_iff.1 hs
  exact h.move (by have := h.lock; grind) (by grind) (by grind) (by grind)

theorem Inv.unlock (h : Inv s free) (hs : step s (.unlock k) = some t) : Inv t free := by
  simp only [step] at hs
  split at hs
  · rename_i pc hpc
    obtain rfl := Option.some.inj hs
    have hlock := (h.lock k).2 (by cases hk : s.pc k <;> simp_all [Pc.unlocked, Pc.Locked])
    have hcases : (∃ x, s.pc k = .unlockTaken x ∧ pc = .returned x) ∨
        (s.pc k = .unlockEmpty ∧ pc = .newObject) ∨ s.pc k = .unlockReleased ∧ pc = .idle := by
      cases hk : s.pc k <;> simp_all [Pc.unlocked]
    refine h.move ?_ ?_ ?_ ?_
    · have := h.lock
      grind
    all_goals rcases hcases with ⟨x, hk, rfl⟩ | ⟨hk, rfl⟩ | ⟨hk, rfl⟩ <;> grind
  · cases hs

/-- The thread takes the first object of the free list, which it has found not to be empty. -/
theorem Inv.takeStep (h : Inv s free) (hs : step s (.take k) = some t) :
    ∃ l, Inv t l := by
  obtain ⟨hk, hs⟩ := Option.ite_none_right_eq_some.1 hs
  have hchain := h.chain_of_locked (k := k) (by simp [hk, Pc.Locked]) (by simp [hk])
  split at hs
  · rename_i entry hentry
    obtain rfl := Option.some.inj hs
    rw [hentry] at hchain
    obtain ⟨l, rfl, hl⟩ := hchain.of_some
    refine ⟨l, ?_⟩
    exact {
      lock := by have := h.lock; grind
      chain := fun _ => hl
      store := fun j x old hj => by
        have hlk := (h.lock k).2 (by simp [hk, Pc.Locked])
        have hlj := (h.lock j).2
        grind
      take := fun j hj => by
        have hlk := (h.lock k).2 (by simp [hk, Pc.Locked])
        have hlj := (h.lock j).2
        grind
      count := h.count_update fun x => by
        simp only [hk, Pc.holds, List.count_cons, beq_iff_eq]
        omega }
  · cases hs

/-- A caller writes the link of an object that it has. -/
theorem Inv.write (h : Inv s free) (hs : step s (.write x v) = some t) : Inv t free := by
  obtain ⟨hx, rfl⟩ := enabled_iff.1 hs
  have hmem := h.notMem (.inl hx)
  exact { h with
    chain := fun hno => (h.chain hno).update hmem v
    store := fun k y old hk => by
      obtain ⟨hhead, l, rfl, hl⟩ := h.store k y old hk
      exact ⟨hhead, l, rfl, hl.update (fun hl => hmem (List.mem_cons_of_mem _ hl)) v⟩ }

theorem Inv.release (h : Inv s free) (hs : step s (.release k x) = some t) : Inv t free := by
  obtain ⟨⟨hk, hx⟩, rfl⟩ := enabled_iff.1 hs
  exact {
    lock := by have := h.lock; grind
    chain := fun hno => h.chain fun j y old hj => hno j y old (by grind)
    store := by have := h.store; grind
    take := by have := h.take; grind
    count := h.count_update fun y => by
      simp only [hk, Pc.holds, Function.update_apply]
      by_cases hxy : y = x
      · simp only [hxy, if_true]
        omega
      · simp only [hxy, Ne.symm hxy, if_false] }

theorem Inv.takeResult (h : Inv s free) (hs : step s (.takeResult k) = some t) : Inv t free := by
  simp only [step] at hs
  split at hs
  · rename_i x hk
    obtain rfl := Option.some.inj hs
    exact {
      lock := by have := h.lock; grind
      chain := fun hno => h.chain fun j y old hj => hno j y old (by grind)
      store := by have := h.store; grind
      take := by have := h.take; grind
      count := h.count_update fun y => by
        simp only [hk, Pc.holds, Function.update_apply]
        by_cases hxy : y = x
        · simp only [hxy, if_true]
          omega
        · simp only [hxy, Ne.symm hxy, if_false] }
  · cases hs

/-- A new object is nowhere yet. -/
theorem Inv.newObject (h : Inv s free) (hs : step s (.newObject k x v) = some t) : Inv t free := by
  obtain ⟨⟨hk, hlive⟩, rfl⟩ := enabled_iff.1 hs
  have hmem : x ∉ free := fun hmem => by
    obtain ⟨n, -, hn⟩ := h.count x
    have := List.count_pos_iff.2 hmem
    rw [if_neg hlive] at hn
    omega
  exact {
    lock := by have := h.lock; grind
    chain := fun hno => (h.chain fun j y old hj => hno j y old (by grind)).update hmem v
    store := fun j y old hj => by
      obtain ⟨hhead, l, rfl, hl⟩ := h.store j y old (by grind)
      exact ⟨hhead, l, rfl, hl.update (fun hl => hmem (List.mem_cons_of_mem _ hl)) v⟩
    take := by have := h.take; grind
    count := h.count_update fun y => by
      simp only [hk, Pc.holds, List.mem_cons]
      by_cases hxy : y = x
      · simp only [hxy, hlive, if_true, if_false, true_or]
      · simp only [hxy, Ne.symm hxy, if_false, false_or] }

/-- The object is the first of the free list, and its link has not been written. -/
theorem Inv.exchange (h : Inv s free) (hs : step s (.exchange k) = some t) :
    ∃ l, Inv t l := by
  simp only [step] at hs
  split at hs
  · rename_i x hk
    obtain rfl := Option.some.inj hs
    have hchain := h.chain_of_locked (k := k) (by simp [hk, Pc.Locked]) (by simp [hk])
    have hlk := (h.lock k).2 (by simp [hk, Pc.Locked])
    have hlj := h.lock
    refine ⟨x :: free, ?_⟩
    exact {
      lock := by grind
      chain := fun hno => absurd (Function.update_self k _ s.pc) (hno k x s.free_list_)
      store := fun j y old hj => by
        by_cases hjk : j = k
        · subst hjk
          have hpc : Pc.store x s.free_list_ = .store y old :=
            (Function.update_self j _ s.pc).symm.trans hj
          cases hpc
          exact ⟨rfl, free, rfl, hchain⟩
        · have := (hlj j).2 (by grind)
          grind
      take := by grind
      count := h.count_update fun y => by
        simp only [hk, Pc.holds, List.count_cons, beq_iff_eq]
        omega }
  · cases hs

theorem Inv.storeStep (h : Inv s free) (hs : step s (.store k) = some t) : Inv t free := by
  simp only [step] at hs
  split at hs
  · rename_i x old hk
    obtain rfl := Option.some.inj hs
    obtain ⟨hhead, l, rfl, hl⟩ := h.store k x old hk
    have hlk := (h.lock k).2 (by simp [hk, Pc.Locked])
    have hlj := h.lock
    have hx : x ∉ l := (List.nodup_cons.1 h.nodup).1
    exact {
      lock := by grind
      chain := fun _ => by
        rw [hhead]
        exact hl.push hx
      store := fun j y o hj => by
        have := (hlj j).2
        grind
      take := by grind
      count := h.count_update fun y => by simp only [hk, Pc.holds] }
  · cases hs

theorem Inv.step (h : Inv s free) (hs : step s a = some t) : ∃ l, Inv t l := by
  cases a with
  | acquire k => exact ⟨free, h.acquire hs⟩
  | release k x => exact ⟨free, h.release hs⟩
  | write x v => exact ⟨free, h.write hs⟩
  | lock k => exact ⟨free, h.lockStep hs⟩
  | test k => exact ⟨free, h.test hs⟩
  | take k => exact h.takeStep hs
  | unlock k => exact ⟨free, h.unlock hs⟩
  | newObject k x v => exact ⟨free, h.newObject hs⟩
  | badAlloc k =>
    obtain ⟨hk, rfl⟩ := enabled_iff.1 hs
    exact ⟨free, h.move (by have := h.lock; grind) (by grind) (by grind) (by grind)⟩
  | takeResult k => exact ⟨free, h.takeResult hs⟩
  | exchange k => exact h.exchange hs
  | store k => exact ⟨free, h.storeStep hs⟩

theorem Inv.reachable (h : (system ν κ).Reachable s) : ∃ free, Inv s free :=
  System.Invariant.reachable (I := fun s => ∃ free, Inv s free)
    ⟨⟨[], .init⟩, fun _ _ _ _ ⟨_, hi⟩ hs => hi.step hs⟩ h

omit [DecidableEq κ] in
theorem destroy_chain {next : ν → Option ν} (hc : Chain next free o) (hn : free.Nodup)
    (hl : ∀ x ∈ free, x ∈ live) (hf : free.length ≤ fuel) :
    destroy next fuel live o = some free := by
  induction free generalizing fuel live o with
  | nil =>
    obtain rfl := hc
    cases fuel <;> rfl
  | cons x free ih =>
    obtain ⟨rfl, hc⟩ := hc
    obtain ⟨hx, hn⟩ := List.nodup_cons.1 hn
    cases fuel with
    | zero => cases hf
    | succ fuel =>
      have hrest : ∀ y ∈ free, y ∈ live.erase x := fun y hy =>
        (List.mem_erase_of_ne fun he : y = x => hx (he ▸ hy)).2 (hl y (List.mem_cons_of_mem _ hy))
      rw [destroy, if_pos (hl x List.mem_cons_self), ih hc hn hrest (Nat.le_of_succ_le_succ hf)]
      rfl

/-- Every object of the pool is in one place: in the free list, with one caller, or on its way in
one thread. When all threads are done the destructor deletes those in the free list, each of them
once. -/
theorem objects_accounted (h : (system ν κ).Reachable s) :
    (∀ k, s.pc k = .take → s.free_list_ ≠ none) ∧
    ∃ free, (s.lock_ = none → Chain s.next free s.free_list_) ∧
      (∀ x, ∃ n, Total (fun k => (s.pc k).holds x) n ∧
        free.count x + s.handed x + n = if x ∈ s.live then 1 else 0) ∧
      ((∀ k, s.pc k = .idle) → destroy s.next s.live.length s.live s.free_list_ = some free) := by
  obtain ⟨free, hi⟩ := Inv.reachable h
  have hchain : s.lock_ = none → Chain s.next free s.free_list_ := fun hl =>
    hi.chain fun k x old hk => by
      have := (hi.lock k).2 (by simp [hk, Pc.Locked])
      simp [hl] at this
  refine ⟨hi.take, free, hchain, hi.count, fun hidle => ?_⟩
  have hlock : s.lock_ = none := by
    cases hl : s.lock_ with
    | none => rfl
    | some k =>
      have := (hi.lock k).1 hl
      simp [hidle, Pc.Locked] at this
  have hlive : ∀ x ∈ free, x ∈ s.live := fun x hx => by
    obtain ⟨n, -, hn⟩ := hi.count x
    have := List.count_pos_iff.2 hx
    by_contra hnot
    rw [if_neg hnot] at hn
    omega
  exact destroy_chain (hchain hlock) hi.nodup hlive (hi.nodup.subperm hlive).length_le

/-- An object is made, released and handed out to another thread. -/
def recycleRun : List (Act Nat Nat) :=
  [.acquire 0, .lock 0, .test 0, .unlock 0, .newObject 0 7 none, .takeResult 0, .release 0 7,
    .lock 0, .exchange 0, .store 0, .unlock 0, .acquire 1, .lock 1, .test 1, .take 1, .unlock 1]

theorem objects_accounted_recycle : ∃ s, (system Nat Nat).exec (system Nat Nat).init recycleRun =
    some s ∧ s.pc 1 = .returned 7 ∧ s.handed 7 = 0 ∧ Total (fun k => (s.pc k).holds 7) 1 ∧
      ∃ free, Chain s.next free s.free_list_ ∧ 7 ∉ free := by
  have hend : ((system Nat Nat).exec (system Nat Nat).init recycleRun).map
      (fun s => (s.pc 1, s.lock_, s.live)) = some (.returned 7, none, [7]) := rfl
  obtain ⟨s, hs, he⟩ := Option.map_eq_some_iff.1 hend
  simp only [Prod.mk.injEq] at he
  obtain ⟨hpc, hlock, hlive⟩ := he
  obtain ⟨-, free, hchain, hcount, -⟩ :=
    objects_accounted ((system Nat Nat).reachable_exec recycleRun hs)
  -- thread 1 holds the object, so that nobody else does
  obtain ⟨n, hn, hone⟩ := hcount 7
  rw [if_pos (by rw [hlive]; decide)] at hone
  have hle : 1 ≤ n := by
    have := hn.le 1
    rwa [hpc] at this
  obtain rfl : n = 1 := by omega
  refine ⟨s, hs, hpc, by omega, hn, free, hchain hlock, ?_⟩
  rw [← List.count_eq_zero]
  omega

end Coio.ObjectPool
