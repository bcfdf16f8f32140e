import Coio.Lib.Linked

namespace Coio
open Linked
open Function (update)
set_option autoImplicit true

/-- The waiting list of a semaphore with the links of its nodes. -/
structure WaitingList (ι : Type u) where
  head : Option ι := none
  tail : Option ι := none
  prev : ι → Option ι := fun _ => none
  next : ι → Option ι := fun _ => none

namespace WaitingList

variable [DecidableEq ι]

/-- The waiter becomes the last one. -/
def push (w : WaitingList ι) (waiter : ι) : WaitingList ι :=
  let prev := w.tail
  let w := { w with
    tail := some waiter, prev := update w.prev waiter prev, next := update w.next waiter none }
  match prev with
  | some p => { w with next := update w.next p (some waiter) }
  | none => { w with head := some waiter }

/-- The first waiter, if any, leaves the list. -/
def pop (w : WaitingList ι) : WaitingList ι × Option ι :=
  match w.head with
  | none => (w, none)
  | some head =>
    let w := { w with head := w.next head }
    let w := match w.head with
      | some n => { w with prev := update w.prev n none }
      | none => { w with tail := none }
    ({ w with prev := update w.prev head none, next := update w.next head none }, some head)

/-- A waiter leaves the list if it is in it, as only its `prev_` and `waiting_list_head_` tell. -/
def unregister (w : WaitingList ι) (waiter : ι) : WaitingList ι × Bool :=
  let cut := match w.prev waiter with
    | some p => some { w with next := update w.next p (w.next waiter) }
    | none => if w.head = some waiter then some { w with head := w.next waiter } else none
  match cut with
  | none => (w, false)
  | some w =>
    let w := match w.next waiter with
      | some n => { w with prev := update w.prev n (w.prev waiter) }
      | none => { w with tail := w.prev waiter }
    ({ w with prev := update w.prev waiter none, next := update w.next waiter none }, true)

/-- The links spell out a list of waiters. -/
def Spells (w : WaitingList ι) (l : List ι) : Prop := Doubly w.prev w.next w.head w.tail l

variable {w : WaitingList ι} {l : List ι}

theorem push_spec (h : Spells w l) (hx : x ∉ l) : Spells (w.push x) (l ++ [x]) := by
  have hlast : ∀ p, w.tail = some p → p ≠ x := by
    intro p hp hpx
    rw [h.tail] at hp
    exact hx (hpx ▸ List.mem_of_getLast? hp)
  unfold push Spells
  dsimp only
  cases ht : w.tail with
  | none =>
    refine h.push hx (fun y => ?_) (fun y => ?_) ?_ <;> simp [ht, Function.update_apply]
  | some p =>
    refine h.push hx (fun y => ?_) (fun y => ?_) ?_
    · simp [ht, Function.update_apply]
    · have := hlast p ht
      simp only [ht, Function.update_apply, Option.some.injEq]
      grind
    · simp [ht]

theorem pop_nil (h : Spells w []) : w.pop = (w, none) := by
  rw [pop, show w.head = none from h.head]

theorem pop_cons (h : Spells w (x :: l)) : ∃ w', w.pop = (w', some x) ∧ Spells w' l := by
  have hhead : w.head = some x := h.head
  obtain ⟨hprev, hnext⟩ := Doubly.split (a := []) h
  have hxl := (List.nodup_cons.1 h.nodup).1
  refine ⟨(w.pop).1, by rw [pop, hhead], ?_⟩
  rw [pop, hhead]
  dsimp only
  cases l with
  | nil =>
    rw [show w.next x = none from hnext]
    refine Doubly.erase (a := []) h (fun y => ?_) (fun y => ?_) ?_ ?_ <;>
      simp [Function.update_apply]
  | cons n l =>
    rw [show w.next x = some n from hnext]
    have hxn : n ≠ x := fun he => hxl (he ▸ List.mem_cons_self)
    refine Doubly.erase (a := []) h (fun y => ?_) (fun y => ?_) ?_ ?_
    · simp only [Function.update_apply, List.head?_cons, Option.some.injEq, List.getLast?_nil]
      grind
    · simp [Function.update_apply]
    · simp
    · simp

theorem unregister_of_notMem (h : Spells w l) (hx : x ∉ l) : w.unregister x = (w, false) := by
  have hhead : w.head ≠ some x := by
    rw [h.head]
    exact fun he => hx (List.mem_of_mem_head? he)
  simp only [unregister, h.prev_none hx, if_neg hhead]

theorem unregister_mem {a b : List ι} (h : Spells w (a ++ x :: b)) :
    ∃ w', w.unregister x = (w', true) ∧ Spells w' (a ++ b) := by
  obtain ⟨hprev, hnext⟩ := Doubly.split h
  have hn := h.nodup
  rw [List.nodup_append, List.nodup_cons] at hn
  obtain ⟨-, ⟨hxb, -⟩, hd⟩ := hn
  have hxa : x ∉ a := fun hx => hd x hx x List.mem_cons_self rfl
  have hfirst : ∀ n, b.head? = some n → n ≠ x := fun n hn he =>
    hxb (he ▸ List.mem_of_mem_head? hn)
  cases ha : a.getLast? with
  | none =>
    obtain rfl := List.getLast?_eq_none_iff.1 ha
    have hhead : w.head = some x := h.head
    rw [ha] at hprev
    cases hb : b.head? with
    | none =>
      rw [hb] at hnext
      refine ⟨_, by simp only [unregister, hprev, hhead, if_true, hnext]; rfl, ?_⟩
      refine Doubly.erase (a := []) h (fun y => ?_) (fun y => ?_) ?_ ?_
      · simp [Function.update_apply, hb]
      · simp [Function.update_apply]
      · simp [hb]
      · simp [List.head?_eq_none_iff.1 hb]
    | some n =>
      rw [hb] at hnext
      refine ⟨_, by simp only [unregister, hprev, hhead, if_true, hnext]; rfl, ?_⟩
      refine Doubly.erase (a := []) h (fun y => ?_) (fun y => ?_) ?_ ?_
      · simp only [Function.update_apply, hb, Option.some.injEq, List.getLast?_nil]
        have := hfirst n hb
        grind
      · simp [Function.update_apply]
      · simp [hb]
      · have : b ≠ [] := by rintro rfl; cases hb
        simp [this]
  | some p =>
    have hpx : p ≠ x := fun he => hxa (he ▸ List.mem_of_getLast? ha)
    have hne : a ≠ [] := by rintro rfl; cases ha
    rw [ha] at hprev
    cases hb : b.head? with
    | none =>
      rw [hb] at hnext
      refine ⟨_, by simp only [unregister, hprev, hnext, Function.update_of_ne hpx.symm]; rfl, ?_⟩
      refine Doubly.erase h (fun y => ?_) (fun y => ?_) ?_ ?_
      · simp [Function.update_apply, hb]
      · simp only [Function.update_apply, ha, hb, Option.some.injEq]
        grind
      · simp [hne]
      · simp [List.head?_eq_none_iff.1 hb, ha]
    | some n =>
      rw [hb] at hnext
      refine ⟨_, by simp only [unregister, hprev, hnext, Function.update_of_ne hpx.symm]; rfl, ?_⟩
      refine Doubly.erase h (fun y => ?_) (fun y => ?_) ?_ ?_
      · simp only [Function.update_apply, ha, hb, Option.some.injEq]
        have := hfirst n hb
        grind
      · simp only [Function.update_apply, ha, hb, Option.some.injEq]
        grind
      · simp [hne]
      · have : b ≠ [] := by rintro rfl; cases hb
        simp [this]

end WaitingList
end Coio
