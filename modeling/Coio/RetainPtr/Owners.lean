import Coio.Lib.Tally
import Coio.RetainPtr.Model

namespace Coio.RetainPtr
open Transition
open Function (update)
open Tally (Total)
set_option autoImplicit true

/-- What an object with this `ptr_` adds to the count of `k`. -/
def share [DecidableEq κ] (k : κ) (p : Option (Option κ)) : Nat :=
  if p = some (some k) then 1 else 0

theorem share_some [DecidableEq κ] (k p : κ) :
    share k (some (some p)) = if k = p then 1 else 0 := by
  unfold share
  by_cases hk : k = p
  · rw [hk, if_pos rfl, if_pos rfl]
  · rw [if_neg hk, if_neg]
    rintro ⟨⟩
    exact hk rfl

theorem share_self [DecidableEq κ] (k : κ) : share k (some (some k)) = 1 := if_pos rfl

variable [DecidableEq ι] [DecidableEq κ] {s t u : State ι κ}

/-- Each pointee counts its owners, the temporary included, and is lost at most once. -/
structure Counted (s : State ι κ) : Prop where
  total : ∀ k, Total (fun o => share k (s.ptr_ o)) (s.ref_count_ k)
  lost : ∀ k ∈ s.lost, s.ref_count_ k = 0
  nodup : s.lost.Nodup

omit [DecidableEq ι] in
theorem Counted.pos (h : Counted s) (ho : s.ptr_ o = some (some k)) : 0 < s.ref_count_ k := by
  have hle : share k (s.ptr_ o) ≤ s.ref_count_ k := (h.total k).le o
  rwa [ho, share_self] at hle

omit [DecidableEq ι] in
theorem Counted.not_lost (h : Counted s) (ho : s.ptr_ o = some ptr) : ∀ k ∈ ptr, k ∉ s.lost := by
  rintro k rfl hk
  have hzero := h.lost k hk
  have hpos := h.pos ho
  omega

theorem construct_eq (hc : s.construct o ptr = some t) :
    s.ptr_ o = none ∧ t.ptr_ = update s.ptr_ o (some ptr) ∧ t.lost = s.lost ∧
      ∀ k, t.ref_count_ k = s.ref_count_ k + share k (some ptr) := by
  obtain ⟨hnone, he⟩ := Option.ite_none_right_eq_some.1 hc
  refine ⟨hnone, ?_⟩
  cases ptr with
  | none =>
    cases he
    exact ⟨rfl, rfl, fun k => rfl⟩
  | some p =>
    cases he
    refine ⟨rfl, rfl, fun k => ?_⟩
    change update s.ref_count_ p (s.ref_count_ p + 1) k = _
    rw [share_some, Function.update_apply]
    split
    next hk => rw [hk]
    next => rfl

omit [DecidableEq κ] in
theorem move_construct_eq (hc : s.move_construct o other = some t) :
    s.ptr_ o = none ∧ ∃ ptr, s.ptr_ other = some ptr ∧
      t.ptr_ = update (update s.ptr_ other (some none)) o (some ptr) ∧ t.lost = s.lost ∧
      t.ref_count_ = s.ref_count_ := by
  obtain ⟨ptr, hother, hc⟩ := Option.bind_eq_some_iff.1 hc
  obtain ⟨hnone, rfl⟩ := enabled_iff.1 hc
  exact ⟨hnone, ptr, hother, rfl, rfl, rfl⟩

omit [DecidableEq κ] in
theorem swap_eq (hs : s.swap o other = some t) :
    ∃ ptr otherPtr, s.ptr_ o = some ptr ∧ s.ptr_ other = some otherPtr ∧
      t.ptr_ = update (update s.ptr_ o (some otherPtr)) other (some ptr) ∧ t.lost = s.lost ∧
      t.ref_count_ = s.ref_count_ := by
  obtain ⟨ptr, ho, hs⟩ := Option.bind_eq_some_iff.1 hs
  obtain ⟨otherPtr, hother, hs⟩ := Option.bind_eq_some_iff.1 hs
  cases hs
  exact ⟨ptr, otherPtr, ho, hother, rfl, rfl, rfl⟩

theorem destruct_eq (hd : s.destruct o = some t) :
    ∃ ptr, s.ptr_ o = some ptr ∧ t.ptr_ = update s.ptr_ o none ∧
      t.lost = s.lost ++ (ptr.filter (s.ref_count_ · = 1)).toList ∧
      ∀ k, t.ref_count_ k = s.ref_count_ k - share k (some ptr) := by
  unfold State.destruct at hd
  split at hd
  case h_1 => cases hd
  case h_2 ho =>
    cases hd
    exact ⟨none, ho, rfl, (List.append_nil _).symm, fun k => rfl⟩
  case h_3 p ho =>
    cases hd
    refine ⟨some p, ho, rfl, ?_, fun k => ?_⟩
    · change (if s.ref_count_ p = 1 then s.lost ++ [p] else s.lost) = _
      by_cases hp : s.ref_count_ p = 1
      · rw [if_pos hp, Option.filter_some, if_pos (decide_eq_true hp)]
        rfl
      · rw [if_neg hp, Option.filter_some, if_neg fun hd => hp (of_decide_eq_true hd)]
        exact (List.append_nil _).symm
    · change update s.ref_count_ p (s.ref_count_ p - 1) k = _
      rw [share_some, Function.update_apply]
      split
      next hk => rw [hk]
      next => rfl

theorem construct_counted (h : Counted s) (hp : ∀ k ∈ ptr, k ∉ s.lost)
    (hc : s.construct o ptr = some t) : Counted t := by
  obtain ⟨hnone, hptr, hlost, hcount⟩ := construct_eq hc
  have hzero (k : κ) : share k (s.ptr_ o) = 0 := by
    rw [hnone]
    rfl
  constructor
  · intro k
    rw [hptr, hcount]
    apply (h.total k).update
    rw [hzero, Nat.add_zero]
  · intro k hk
    rw [hlost] at hk
    rw [hcount, h.lost k hk, Nat.zero_add]
    apply if_neg
    rintro ⟨⟩
    exact hp k rfl hk
  · rw [hlost]
    exact h.nodup

theorem move_construct_counted (h : Counted s) (hc : s.move_construct o other = some t) :
    Counted t := by
  obtain ⟨hnone, ptr, hother, hptr, hlost, hcount⟩ := move_construct_eq hc
  constructor
  · intro k
    have hle : share k (s.ptr_ other) ≤ s.ref_count_ k := (h.total k).le other
    have hne : o ≠ other := by
      rintro rfl
      rw [hnone] at hother
      cases hother
    have hfirst : Total (fun j => share k (update s.ptr_ other (some none) j))
        (s.ref_count_ k - share k (s.ptr_ other)) :=
      (h.total k).update (Nat.sub_add_cancel hle).symm
    rw [hptr, hcount]
    apply hfirst.update
    rw [Function.update_of_ne hne, hnone, ← hother]
    exact Nat.sub_add_cancel hle
  · rw [hlost, hcount]
    exact h.lost
  · rw [hlost]
    exact h.nodup

theorem swap_counted (h : Counted s) (hs : s.swap o other = some t) : Counted t := by
  obtain ⟨ptr, otherPtr, ho, hother, hptr, hlost, hcount⟩ := swap_eq hs
  constructor
  · intro k
    rw [hptr, hcount, ← ho, ← hother]
    exact (h.total k).swap
  · rw [hlost, hcount]
    exact h.lost
  · rw [hlost]
    exact h.nodup

omit [DecidableEq ι] [DecidableEq κ] in
theorem mem_filter_toList {ptr : Option κ} {k : κ} :
    k ∈ (ptr.filter (s.ref_count_ · = 1)).toList ↔ ptr = some k ∧ s.ref_count_ k = 1 := by
  rw [Option.mem_toList, Option.filter_eq_some_iff, decide_eq_true_eq]

theorem destruct_counted (h : Counted s) (hd : s.destruct o = some t) : Counted t := by
  obtain ⟨ptr, ho, hptr, hlost, hcount⟩ := destruct_eq hd
  constructor
  · intro k
    rw [hptr, hcount]
    apply (h.total k).update
    have hle : share k (s.ptr_ o) ≤ s.ref_count_ k := (h.total k).le o
    rw [ho] at hle ⊢
    exact (Nat.sub_add_cancel hle).symm
  · intro k hk
    rw [hlost, List.mem_append, mem_filter_toList] at hk
    rw [hcount]
    rcases hk with hk | ⟨rfl, hone⟩
    · rw [h.lost k hk, Nat.zero_sub]
    · rw [hone, share_self]
  · rw [hlost]
    refine h.nodup.append ?_ ?_
    · cases ptr.filter (s.ref_count_ · = 1) <;> simp
    · intro k hk hmem
      have hzero := h.lost k hk
      have hone := (mem_filter_toList.1 hmem).2
      omega

/-- Nobody has let go of anything. -/
structure Grows (s t : State ι κ) : Prop where
  lost : t.lost = s.lost
  le : ∀ k, s.ref_count_ k ≤ t.ref_count_ k

/-- `do_lose` has been called for the pointees whose count has fallen to zero and for no other. -/
def Settles (s t : State ι κ) : Prop :=
  ∃ l, t.lost = s.lost ++ l ∧ ∀ k, k ∈ l ↔ 0 < s.ref_count_ k ∧ t.ref_count_ k = 0

omit [DecidableEq ι] [DecidableEq κ] in
theorem Grows.settles (h : Grows s t) : Settles s t := by
  refine ⟨[], ?_, fun k => ?_⟩
  · rw [h.lost, List.append_nil]
  · have hle := h.le k
    simp only [List.not_mem_nil, false_iff, not_and]
    omega

theorem construct_grows (hc : s.construct o ptr = some t) : Grows s t := by
  obtain ⟨-, -, hlost, hcount⟩ := construct_eq hc
  refine ⟨hlost, fun k => ?_⟩
  rw [hcount]
  exact Nat.le_add_right ..

omit [DecidableEq κ] in
theorem move_construct_grows (hc : s.move_construct o other = some t) : Grows s t := by
  obtain ⟨-, ptr, -, -, hlost, hcount⟩ := move_construct_eq hc
  exact ⟨hlost, fun k => (congrFun hcount k).ge⟩

omit [DecidableEq κ] in
theorem swap_grows (hs : s.swap o other = some t) : Grows s t := by
  obtain ⟨ptr, otherPtr, -, -, -, hlost, hcount⟩ := swap_eq hs
  exact ⟨hlost, fun k => (congrFun hcount k).ge⟩

omit [DecidableEq ι] [DecidableEq κ] in
theorem Grows.trans (h : Grows s t) (h' : Grows t u) : Grows s u :=
  ⟨h'.lost.trans h.lost, fun k => (h.le k).trans (h'.le k)⟩

/-- The object that is destroyed holds something that was held before. -/
theorem Grows.destruct (hg : Grows s u) (ho : ∀ k, u.ptr_ o = some (some k) → 0 < s.ref_count_ k)
    (hd : u.destruct o = some t) : Settles s t := by
  obtain ⟨ptr, hptr, -, hlost, hcount⟩ := destruct_eq hd
  refine ⟨_, hlost.trans (congrArg (· ++ _) hg.lost), fun k => ?_⟩
  rw [mem_filter_toList, hcount]
  have hle := hg.le k
  constructor
  · rintro ⟨rfl, hone⟩
    rw [hone, share_self]
    exact ⟨ho k hptr, rfl⟩
  · rintro ⟨hpos, hzero⟩
    have hshare : share k (some ptr) ≠ 0 := by omega
    have hk : ptr = some k := by
      by_contra hne
      exact hshare (if_neg fun he => hne (Option.some_inj.1 he))
    rw [hk, share_self] at hzero
    exact ⟨hk, by omega⟩

/-- Between the steps there is no temporary. -/
structure Inv (s : State ι κ) : Prop extends Counted s where
  temporary : s.ptr_ .temporary = none

theorem assign_temporary_settles (hg : Grows s u) (hu : Counted u)
    (hi : ∀ k, u.ptr_ (.own i) = some (some k) → 0 < s.ref_count_ k)
    (ha : u.assign_temporary i = some t) : Inv t ∧ Settles s t := by
  obtain ⟨v, hs, hd⟩ := Option.bind_eq_some_iff.1 ha
  obtain ⟨ptr, own, -, hown, hptr, -, -⟩ := swap_eq hs
  have hv : Counted v := swap_counted hu hs
  refine ⟨⟨destruct_counted hv hd, ?_⟩, (hg.trans (swap_grows hs)).destruct ?_ hd⟩
  · obtain ⟨-, -, ht, -, -⟩ := destruct_eq hd
    rw [ht, Function.update_self]
  · intro k hk
    apply hi
    rw [hptr, Function.update_of_ne (by rintro ⟨⟩), Function.update_self] at hk
    exact hown.trans hk

theorem construct_settles (h : Inv s) (hp : ∀ k ∈ ptr, k ∉ s.lost)
    (hc : s.construct (.own i) ptr = some t) : Inv t ∧ Settles s t := by
  refine ⟨⟨construct_counted h.toCounted hp hc, ?_⟩, (construct_grows hc).settles⟩
  rw [(construct_eq hc).2.1, Function.update_of_ne (by rintro ⟨⟩)]
  exact h.temporary

theorem reset_settles (h : Inv s) (hp : ∀ k ∈ ptr, k ∉ s.lost) (hr : s.reset i ptr = some t) :
    Inv t ∧ Settles s t := by
  obtain ⟨u, hc, ha⟩ := Option.bind_eq_some_iff.1 hr
  refine assign_temporary_settles (construct_grows hc) (construct_counted h.toCounted hp hc)
    (fun k hk => ?_) ha
  rw [(construct_eq hc).2.1, Function.update_of_ne (by rintro ⟨⟩)] at hk
  exact h.pos hk

theorem step_settles (h : Inv s) (hs : step s a = some t) : Inv t ∧ Settles s t := by
  cases a with
  | construct i ptr =>
    obtain ⟨hp, hc⟩ := Option.ite_none_right_eq_some.1 hs
    exact construct_settles h hp hc
  | copyConstruct i other =>
    obtain ⟨ptr, hptr, hc⟩ := Option.bind_eq_some_iff.1 hs
    exact construct_settles h (h.not_lost hptr) hc
  | moveConstruct i other =>
    obtain ⟨-, ptr, -, hptr, -, -⟩ := move_construct_eq hs
    refine ⟨⟨move_construct_counted h.toCounted hs, ?_⟩, (move_construct_grows hs).settles⟩
    rw [hptr, Function.update_of_ne (by rintro ⟨⟩), Function.update_of_ne (by rintro ⟨⟩)]
    exact h.temporary
  | copyAssign i other =>
    obtain ⟨u, hc, ha⟩ := Option.bind_eq_some_iff.1 hs
    obtain ⟨ptr, hptr, hc⟩ := Option.bind_eq_some_iff.1 hc
    exact reset_settles h (h.not_lost hptr) (Option.bind_eq_some_iff.2 ⟨u, hc, ha⟩)
  | moveAssign i other =>
    obtain ⟨u, hc, ha⟩ := Option.bind_eq_some_iff.1 hs
    have hu := move_construct_counted h.toCounted hc
    refine assign_temporary_settles (move_construct_grows hc) hu (fun k hk => ?_) ha
    obtain ⟨-, ptr, -, -, -, hcount⟩ := move_construct_eq hc
    rw [← hcount]
    exact hu.pos hk
  | reset i new_ptr =>
    obtain ⟨hp, hr⟩ := Option.ite_none_right_eq_some.1 hs
    exact reset_settles h hp hr
  | swap i other =>
    obtain ⟨ptr, otherPtr, -, -, hptr, -, -⟩ := swap_eq hs
    refine ⟨⟨swap_counted h.toCounted hs, ?_⟩, (swap_grows hs).settles⟩
    rw [hptr, Function.update_of_ne (by rintro ⟨⟩), Function.update_of_ne (by rintro ⟨⟩)]
    exact h.temporary
  | destruct i =>
    obtain ⟨ptr, -, hptr, -, -⟩ := destruct_eq hs
    refine ⟨⟨destruct_counted h.toCounted hs, ?_⟩,
      Grows.destruct ⟨rfl, fun _ => le_rfl⟩ (fun k hk => h.pos hk) hs⟩
    rw [hptr, Function.update_of_ne (by rintro ⟨⟩)]
    exact h.temporary

theorem init_inv : Inv (system ι κ).init where
  total := fun _ => Total.zero
  lost := fun _ hk => absurd hk List.not_mem_nil
  nodup := List.nodup_nil
  temporary := rfl

theorem reachable_inv (hr : (system ι κ).Reachable s) : Inv s :=
  System.Invariant.reachable ⟨init_inv, fun _ _ _ _ h hs => (step_settles h hs).1⟩ hr

omit [DecidableEq ι] in
theorem Inv.encard (h : Inv s) (k : κ) : {i | s.Holds i k}.encard = s.ref_count_ k := by
  have hobjects : {o | s.ptr_ o = some (some k)} = Object.own '' {i | s.Holds i k} := by
    ext o
    cases o with
    | own i =>
      refine ⟨fun hi => ⟨i, hi, rfl⟩, ?_⟩
      rintro ⟨j, hj, ⟨⟩⟩
      exact hj
    | temporary =>
      refine ⟨fun (ho : s.ptr_ .temporary = some (some k)) => ?_, ?_⟩
      · rw [h.temporary] at ho
        cases ho
      · rintro ⟨j, hj, ⟨⟩⟩
  have hown : Function.Injective (Object.own : ι → Object ι) := fun _ _ he => Object.own.inj he
  rw [← hown.encard_image, ← hobjects]
  exact (h.total k).encard

omit [DecidableEq ι] in
theorem Inv.pos_iff (h : Inv s) : 0 < s.ref_count_ k ↔ ∃ i, s.Holds i k := by
  have hcard := h.encard k
  constructor
  · intro hpos
    have hne : {i | s.Holds i k}.encard ≠ 0 := by
      rw [hcard, Nat.cast_ne_zero]
      exact hpos.ne'
    exact Set.nonempty_of_encard_ne_zero hne
  · rintro ⟨i, hi⟩
    exact h.pos hi

/-- What a call asks of its arguments: a new object is not yet there, the others are, and a pointer
is null or its pointee has not been lost. -/
def Fits (s : State ι κ) : Act ι κ → Prop
  | .construct i ptr => s.ptr_ (.own i) = none ∧ ∀ k ∈ ptr, k ∉ s.lost
  | .copyConstruct i other | .moveConstruct i other =>
    s.ptr_ (.own i) = none ∧ (s.ptr_ (.own other)).isSome
  | .copyAssign i other | .moveAssign i other | .swap i other =>
    (s.ptr_ (.own i)).isSome ∧ (s.ptr_ (.own other)).isSome
  | .reset i ptr => (s.ptr_ (.own i)).isSome ∧ ∀ k ∈ ptr, k ∉ s.lost
  | .destruct i => (s.ptr_ (.own i)).isSome

theorem construct_isSome (ho : s.ptr_ o = none) (ptr : Option κ) :
    (s.construct o ptr).isSome := by
  unfold State.construct
  rw [if_pos ho]
  cases ptr <;> rfl

theorem destruct_isSome (ho : (s.ptr_ o).isSome) : (s.destruct o).isSome := by
  unfold State.destruct
  split
  case h_1 hnone =>
    rw [hnone] at ho
    cases ho
  case h_2 => rfl
  case h_3 => rfl

theorem assign_temporary_isSome (ht : (s.ptr_ .temporary).isSome) (hi : (s.ptr_ (.own i)).isSome) :
    (s.assign_temporary i).isSome := by
  obtain ⟨ptr, ht⟩ := Option.isSome_iff_exists.1 ht
  obtain ⟨own, hi⟩ := Option.isSome_iff_exists.1 hi
  simp only [State.assign_temporary, State.swap, ht, hi, Option.bind_some]
  apply destruct_isSome
  change (update (update s.ptr_ .temporary (some own)) (.own i) (some ptr) .temporary).isSome
  rw [Function.update_of_ne (by rintro ⟨⟩), Function.update_self]
  rfl

theorem reset_isSome (h : Inv s) (hi : (s.ptr_ (.own i)).isSome) (ptr : Option κ) :
    (s.reset i ptr).isSome := by
  obtain ⟨u, hc⟩ := Option.isSome_iff_exists.1 (construct_isSome h.temporary ptr)
  have hptr := (construct_eq hc).2.1
  unfold State.reset
  rw [hc, Option.bind_some]
  apply assign_temporary_isSome
  · rw [hptr, Function.update_self]
    rfl
  · rwa [hptr, Function.update_of_ne (by rintro ⟨⟩)]

theorem move_assign_isSome (h : Inv s) (hi : (s.ptr_ (.own i)).isSome)
    (hother : (s.ptr_ (.own other)).isSome) : (s.move_assign i other).isSome := by
  obtain ⟨ptr, hother⟩ := Option.isSome_iff_exists.1 hother
  simp only [State.move_assign, State.move_construct, hother, h.temporary, Option.bind_some,
    ↓reduceIte]
  apply assign_temporary_isSome
  · change (update (update s.ptr_ (.own other) (some none)) .temporary (some ptr) .temporary).isSome
    rw [Function.update_self]
    rfl
  · change (update (update s.ptr_ (.own other) (some none)) .temporary (some ptr) (.own i)).isSome
    rw [Function.update_of_ne (by rintro ⟨⟩), Function.update_apply]
    split
    next => rfl
    next => exact hi

theorem step_isSome (h : Inv s) (a : Act ι κ) (ha : Fits s a) : (step s a).isSome := by
  cases a with
  | construct i ptr =>
    rw [step, if_pos ha.2]
    exact construct_isSome ha.1 ptr
  | copyConstruct i other =>
    obtain ⟨ptr, hother⟩ := Option.isSome_iff_exists.1 ha.2
    simp only [step, State.copy_construct, hother, Option.bind_some]
    exact construct_isSome ha.1 ptr
  | moveConstruct i other =>
    obtain ⟨ptr, hother⟩ := Option.isSome_iff_exists.1 ha.2
    simp only [step, State.move_construct, hother, ha.1, Option.bind_some, ↓reduceIte]
    rfl
  | copyAssign i other =>
    obtain ⟨ptr, hother⟩ := Option.isSome_iff_exists.1 ha.2
    have hr := reset_isSome h ha.1 ptr
    simp only [step, State.copy_assign, State.copy_construct, hother, Option.bind_some]
    exact hr
  | moveAssign i other => exact move_assign_isSome h ha.1 ha.2
  | reset i ptr =>
    rw [step, if_pos ha.2]
    exact reset_isSome h ha.1 ptr
  | swap i other =>
    obtain ⟨ptr, hi⟩ := Option.isSome_iff_exists.1 ha.1
    obtain ⟨otherPtr, hother⟩ := Option.isSome_iff_exists.1 ha.2
    simp only [step, State.swap, hi, hother, Option.bind_some]
    rfl
  | destruct i => exact destruct_isSome ha

/-- After every sequence of calls a pointee counts its owners, and a call makes those calls of
`do_lose` that are due: one for each pointee whose last owner lets go, and never a second one. -/
theorem owners_counted (hr : (system ι κ).Reachable s) :
    (∀ k, {i | s.Holds i k}.encard = s.ref_count_ k) ∧
    s.lost.Nodup ∧ (∀ k ∈ s.lost, ¬ ∃ i, s.Holds i k) ∧ (∀ a, Fits s a → (step s a).isSome) ∧
    ∀ a t, step s a = some t → ∃ l, t.lost = s.lost ++ l ∧
      ∀ k, k ∈ l ↔ (∃ i, s.Holds i k) ∧ ¬ ∃ i, t.Holds i k := by
  have h := reachable_inv hr
  refine ⟨h.encard, h.nodup, fun k hk => ?_, step_isSome h, fun a t hs => ?_⟩
  · rw [← h.pos_iff, h.lost k hk]
    exact Nat.lt_irrefl 0
  · obtain ⟨ht, l, hlost, hl⟩ := step_settles h hs
    refine ⟨l, hlost, fun k => ?_⟩
    rw [hl, ← h.pos_iff, ← ht.pos_iff, Nat.pos_iff_ne_zero (n := t.ref_count_ k), not_not]

/-- Two objects own the pointee, the first lets go by an assignment to itself and a reset, the
second by an assignment from the null it leaves. -/
theorem owners_counted_shared :
    ∃ s : State Nat Nat, s.lost = [7] ∧ {i | s.Holds i 7}.encard = s.ref_count_ 7 := by
  have hr : (system Nat Nat).Reachable _ := System.reachable_exec
    [.construct 0 (some 7), .copyConstruct 1 0, .copyAssign 0 0, .moveAssign 0 0, .reset 0 none,
      .moveAssign 1 0] rfl
  exact ⟨_, rfl, (owners_counted hr).1 7⟩

end Coio.RetainPtr
