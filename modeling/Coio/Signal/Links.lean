import Coio.Signal.Model

namespace Coio.Signal.WaitingList
open Linked
set_option autoImplicit true

/-- The links spell out a list of waiters, whatever `head` says. -/
def Spells (w : WaitingList ι) (l : List ι) : Prop :=
  Doubly w.prev w.next l.head? l.getLast? l

/-- `head` of a signal that has not fired. -/
def first (l : List ι) : Head ι := l.head?.elim .this .node

theorem first_ne_null (l : List ι) : first l ≠ .null := by
  cases l <;> nofun

theorem node?_first (l : List ι) : (first l).node? = l.head? := by
  cases l <;> rfl

variable [DecidableEq ι] {w : WaitingList ι} {l : List ι}

theorem link_spec (h : Spells w l) (hx : x ∉ l) (hw : w.head = first l) :
    Spells (w.link x) (x :: l) ∧ (w.link x).head = .node x := by
  have hold : w.head.node? = l.head? := by rw [hw, node?_first]
  have htail : (x :: l).getLast? = if l.getLast? = none then some x else l.getLast? := by
    cases l with
    | nil => rfl
    | cons y l => simp [List.getLast?_cons]
  simp only [link, hold]
  cases hl : l.head? with
  | none =>
    refine ⟨Doubly.cons h hx (fun y => ?_) (fun y => ?_) htail, trivial⟩
    · simp [hl, Function.update_apply]
    · simp [hl, Function.update_apply]
  | some n =>
    have hne : n ≠ x := fun he => hx (he ▸ List.mem_of_mem_head? hl)
    refine ⟨Doubly.cons h hx (fun y => ?_) (fun y => ?_) htail, trivial⟩
    · simp only [hl, Function.update_apply, Option.some.injEq]
      grind
    · simp [hl, Function.update_apply]

/-- A node that neither `prev_` nor `head` shows is not removed. -/
theorem remove_false (hp : w.prev x = none) (hw : w.head ≠ .node x) :
    w.remove x = (w, false) := by
  simp only [remove, hp, if_neg hw]

theorem head_remove (h : w.head = .null) : (w.remove x).1.head = .null := by
  unfold remove
  cases hp : w.prev x with
  | none => simp [h]
  | some p =>
    simp only
    split <;> exact h

theorem head_visit (w : WaitingList ι) (x : ι) : (w.visit x).1.head = w.head := by
  unfold visit
  cases w.next x <;> rfl

/-- A node that is not the first one of a detached list is cut out. -/
theorem remove_mem {a b : List ι} (h : Spells w (a ++ x :: b)) (ha : a = [] → w.head = .node x) :
    ∃ w', w.remove x = (w', true) ∧ Spells w' (a ++ b) ∧
      w'.head = if a = [] then first b else w.head := by
  obtain ⟨hprev, hnext⟩ := Doubly.split h
  have hn := h.nodup
  rw [List.nodup_append, List.nodup_cons] at hn
  obtain ⟨-, ⟨hxb, -⟩, hd⟩ := hn
  have hxa : x ∉ a := fun hx => hd x hx x List.mem_cons_self rfl
  have hfirst : ∀ n, b.head? = some n → n ≠ x := fun n hn he =>
    hxb (he ▸ List.mem_of_mem_head? hn)
  have hlast : ∀ p, a.getLast? = some p → x ≠ p := fun p hp he =>
    hxa (he ▸ List.mem_of_getLast? hp)
  have hhead : (a ++ b).head? = if a = [] then b.head? else (a ++ x :: b).head? := by
    cases a <;> simp
  have htail : (a ++ b).getLast? = if b = [] then a.getLast? else (a ++ x :: b).getLast? := by
    cases b <;> simp
  have hcut : ∀ {p n : ι → Option ι},
      (∀ y, p y = if y = x then none else if b.head? = some y then a.getLast? else w.prev y) →
      (∀ y, n y = if y = x then none else if a.getLast? = some y then b.head? else w.next y) →
      Doubly p n (a ++ b).head? (a ++ b).getLast? (a ++ b) :=
    fun hp hn => h.erase hp hn hhead htail
  cases hp : a.getLast? with
  | none =>
    obtain rfl := List.getLast?_eq_none_iff.1 hp
    rw [hp] at hprev
    simp only [remove, hprev, ha rfl, if_true, hnext, first]
    cases hb : b.head? with
    | none =>
      refine ⟨_, rfl, hcut (fun y => ?_) (fun y => ?_), rfl⟩
      · simp [Function.update_apply, hb]
      · simp [Function.update_apply]
    | some n =>
      refine ⟨_, rfl, hcut (fun y => ?_) (fun y => ?_), rfl⟩
      · have := hfirst n hb
        simp only [Function.update_apply, hb, Option.some.injEq, List.getLast?_nil]
        grind
      · simp [Function.update_apply]
  | some p =>
    have hne : a ≠ [] := by
      rintro rfl
      cases hp
    rw [hp] at hprev
    simp only [remove, hprev, Function.update_of_ne (hlast p hp), hnext, if_neg hne]
    cases hb : b.head? with
    | none =>
      refine ⟨_, rfl, hcut (fun y => ?_) (fun y => ?_), rfl⟩
      · simp [Function.update_apply, hb]
      · simp only [Function.update_apply, hp, hb, Option.some.injEq]
        grind
    | some n =>
      refine ⟨_, rfl, hcut (fun y => ?_) (fun y => ?_), rfl⟩
      · have := hfirst n hb
        simp only [Function.update_apply, hp, hb, Option.some.injEq]
        grind
      · simp only [Function.update_apply, hp, hb, Option.some.injEq]
        grind

/-- A turn of the loop leaves the rest of the list without a node before its first one. -/
theorem visit_spec (h : Spells w (x :: l)) :
    ∃ w', w.visit x = (w', l.head?) ∧ Spells w' l ∧ w'.head = w.head := by
  obtain ⟨hprev, hnext⟩ := Doubly.split (a := []) h
  have hxl := (List.nodup_cons.1 h.nodup).1
  have htail : l.getLast? = if l = [] then none else (x :: l).getLast? := by
    cases l <;> simp
  simp only [visit, hnext]
  cases hl : l.head? with
  | none =>
    refine ⟨_, rfl, ?_, rfl⟩
    refine Doubly.erase (a := []) h (fun y => ?_) (fun y => ?_) rfl htail
    · simp only [hl]
      by_cases hy : y = x
      · simpa [hy] using hprev
      · simp [hy]
    · simp [Function.update_apply]
  | some n =>
    have hne : x ≠ n := fun he => hxl (he ▸ List.mem_of_mem_head? hl)
    refine ⟨_, rfl, ?_, rfl⟩
    refine Doubly.erase (a := []) h (fun y => ?_) (fun y => ?_) rfl htail
    · simp only [Function.update_apply, hl, Option.some.injEq, List.getLast?_nil] at hprev ⊢
      grind
    · simp [Function.update_apply]

end Coio.Signal.WaitingList
