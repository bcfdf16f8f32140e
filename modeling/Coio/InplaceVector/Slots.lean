import Coio.InplaceVector.Model
import Mathlib.Data.List.Induction

namespace Coio.InplaceVector
open Function (update)
set_option autoImplicit true

/-- The first slots hold the objects `zs`, and the size is `n`. -/
def holding (zs : List α) (n : Nat) : Vec α := { slots := fun i => zs[i]?, cur_size_ := n }

/-- The vector that contains `xs`: a slot holds an object exactly when it is below the size. -/
def ofList (xs : List α) : Vec α := holding xs xs.length

/-- What a reference refers to in a vector that contains `xs`. -/
def Arg.of (xs : List α) : Arg α → Option α
  | value x => some x
  | element i => xs[i]?

section Calls

variable {m : Call α β} {f : β → Call α γ} {v w : Vec α}

theorem bind_ok (h : m v = some (.ok x, w)) : (m >>= f) v = f x w := by
  show (m v).bind _ = _
  rw [h]
  rfl

theorem bind_error (h : m v = some (.error e, w)) : (m >>= f) v = some (.error e, w) := by
  show (m v).bind _ = _
  rw [h]
  rfl

theorem bind_none (h : m v = none) : (m >>= f) v = none := by
  show (m v).bind _ = _
  rw [h]
  rfl

theorem bind_bind (g : γ → Call α δ) : ((m >>= f) >>= g) v = (m >>= fun x => f x >>= g) v := by
  cases hm : m v with
  | none => rw [bind_none (bind_none hm), bind_none hm]
  | some r =>
    obtain ⟨x | e, w⟩ := r
    · rw [bind_error (bind_error hm), bind_error hm]
    · rw [bind_ok hm]
      show ((m v).bind _).bind _ = _
      rw [hm]
      rfl

@[simp] theorem pure_call (x : β) : (pure x : Call α β) v = some (.ok x, v) := rfl

@[simp] theorem throw_call (e : Exception) : (throw e : Call α β) v = some (.error e, v) := rfl

@[simp] theorem size_bind (f : Nat → Call α γ) : (size >>= f) v = f v.cur_size_ v := rfl

@[simp] theorem setSize_call (n : Nat) : setSize n v = some (.ok (), { v with cur_size_ := n }) :=
  rfl

end Calls

@[simp] theorem holding_size (zs : List α) (n : Nat) : (holding zs n).cur_size_ = n := rfl

@[simp] theorem ofList_size (xs : List α) : (ofList xs).cur_size_ = xs.length := rfl

theorem holding_length (xs : List α) : holding xs xs.length = ofList xs := rfl

section Holding

variable {xs ys zs : List α} {n : Nat}

theorem load_holding (h : zs[i]? = some x) :
    load i (holding zs n) = some (.ok x, holding zs n) := by
  simp only [load, holding, h, Option.map_some]

theorem getElem?_middle_ne (ys zs : List α) (x y : α) (h : i ≠ ys.length) :
    (ys ++ x :: zs)[i]? = (ys ++ y :: zs)[i]? := by
  rcases Nat.lt_or_gt_of_ne h with hlt | hgt
  · rw [List.getElem?_append_left hlt, List.getElem?_append_left hlt]
  · obtain ⟨k, hk⟩ := Nat.exists_eq_add_of_lt hgt
    rw [List.getElem?_append_right (Nat.le_of_lt hgt),
      List.getElem?_append_right (Nat.le_of_lt hgt), show i - ys.length = k + 1 by omega,
      List.getElem?_cons_succ, List.getElem?_cons_succ]

theorem update_holding (ys zs : List α) (x y : α) :
    update (fun i => (ys ++ x :: zs)[i]?) ys.length (some y) = fun i => (ys ++ y :: zs)[i]? := by
  funext i
  by_cases hi : i = ys.length
  · subst hi
    simp
  · rw [Function.update_of_ne hi, getElem?_middle_ne ys zs x y hi]

theorem assign_at_holding (ys zs : List α) (x y : α) (n : Nat) :
    assign_at ys.length y (holding (ys ++ x :: zs) n) =
      some (.ok (), holding (ys ++ y :: zs) n) := by
  have hx : (ys ++ x :: zs)[ys.length]? = some x := by simp
  simp only [assign_at, holding, hx, Option.map_some, update_holding]

theorem update_length (zs : List α) (x : α) :
    update (fun i => zs[i]?) zs.length (some x) = fun i => (zs ++ [x])[i]? := by
  funext i
  by_cases hi : i = zs.length
  · subst hi
    simp
  · rw [Function.update_of_ne hi]
    rcases Nat.lt_or_gt_of_ne hi with hlt | hgt
    · rw [List.getElem?_append_left hlt]
    · rw [List.getElem?_eq_none (Nat.le_of_lt hgt), List.getElem?_eq_none]
      simp only [List.length_append, List.length_singleton]
      omega

theorem construct_at_holding (C : Capacity) (h : zs.length < C.N) (x : α) (n : Nat) :
    construct_at C zs.length x (holding zs n) = some (.ok (), holding (zs ++ [x]) n) := by
  have hslot : (holding zs n).slots zs.length = none := by simp [holding]
  rw [construct_at, if_pos ⟨h, hslot⟩]
  simp only [holding, update_length]

theorem destroy_at_holding (zs : List α) (x : α) (n : Nat) :
    destroy_at zs.length (holding (zs ++ [x]) n) = some (.ok (), holding zs n) := by
  have hx : (zs ++ [x])[zs.length]? = some x := by simp
  have hdead : update (fun i => zs[i]?) zs.length none = fun i => zs[i]? :=
    Function.update_eq_self_iff.2 (by simp)
  simp only [destroy_at, holding, hx, Option.map_some]
  rw [← update_length, Function.update_idem, hdead]

/-- The unwinding destroys exactly the objects that were constructed. -/
theorem unwind_holding (xs ys : List α) (n : Nat) :
    unwind ys.length (xs.length + ys.length) (holding (xs ++ ys) n) =
      some (.ok (), holding xs n) := by
  induction ys using List.reverseRecOn with
  | nil => simp [unwind]
  | append_singleton ys y ih =>
    rw [List.length_append, List.length_singleton, unwind]
    rw [bind_ok (w := holding (xs ++ ys) n)]
    · rw [show xs.length + (ys.length + 1) - 1 = xs.length + ys.length by omega]
      exact ih
    · rw [← List.append_assoc, ← destroy_at_holding (xs ++ ys) y n]
      congr 1
      simp only [List.length_append]
      omega

theorem finish_ok (xs ys : List α) :
    finish ((xs ++ ys).length, none) (holding (xs ++ ys) xs.length) =
      some (.ok (), ofList (xs ++ ys)) := rfl

theorem finish_error (xs ys : List α) (e : Exception) :
    finish ((xs ++ ys).length, some e) (holding (xs ++ ys) xs.length) =
      some (.error e, ofList xs) := by
  rw [finish, size_bind, holding_size, List.length_append, Nat.add_sub_cancel_left,
    bind_ok (unwind_holding xs ys xs.length)]
  rfl

theorem Arg.read_holding {a : Arg α} (h : a.of xs = some x) (ys : List α) (n : Nat) :
    a.read (holding (xs ++ ys) n) = some (.ok x, holding (xs ++ ys) n) := by
  cases a with
  | value y =>
    obtain rfl := Option.some.inj h
    rfl
  | element i =>
    have hi : i < xs.length := (List.getElem?_eq_some_iff.1 h).1
    exact load_holding ((List.getElem?_append_left hi).trans h)

/-- Reversing a part of the slots reverses a part of the list. -/
theorem reverse_holding (xs ys zs : List α) (n : Nat) :
    reverse xs.length (xs.length + ys.length) (holding (xs ++ ys ++ zs) n) =
      some (.ok (), holding (xs ++ ys.reverse ++ zs) n) := by
  have hlen : (xs ++ ys).length = xs.length + ys.length := List.length_append
  have hrev : (xs ++ ys.reverse).length = xs.length + ys.length := by simp
  have halive : ∀ i < xs.length + ys.length, xs.length ≤ i →
      (holding (xs ++ ys ++ zs) n).slots i ≠ none := by
    intro i hi _
    simp only [holding]
    rw [List.getElem?_append_left (hlen ▸ hi), List.getElem?_eq_getElem (hlen ▸ hi)]
    exact Option.some_ne_none _
  rw [reverse, if_pos ⟨Nat.le_add_right .., halive⟩]
  congr 3
  funext i
  simp only [holding]
  split
  · rename_i hi
    rw [List.getElem?_append_left (by omega), List.getElem?_append_right (by omega),
      List.getElem?_append_left (by omega), List.getElem?_append_right hi.1,
      List.getElem?_reverse (by omega)]
    congr 1
    omega
  · rename_i hi
    by_cases hlt : i < xs.length
    · rw [List.append_assoc, List.append_assoc, List.getElem?_append_left hlt,
        List.getElem?_append_left hlt]
    · rw [List.getElem?_append_right (by omega), List.getElem?_append_right (by omega), hlen, hrev]

end Holding

/-- Three reversals exchange two neighbouring parts. -/
theorem rotate_holding (xs ys zs : List α) (n : Nat) :
    (do
      reverse xs.length (xs.length + ys.length)
      reverse (xs.length + ys.length) (xs.length + ys.length + zs.length)
      reverse xs.length (xs.length + ys.length + zs.length) : Call α Unit)
        (holding (xs ++ ys ++ zs) n) =
      some (.ok (), holding (xs ++ zs ++ ys) n) := by
  have h₁ := reverse_holding xs ys zs n
  have h₂ := reverse_holding (xs ++ ys.reverse) zs [] n
  have h₃ := reverse_holding xs (ys.reverse ++ zs.reverse) [] n
  simp only [List.append_nil, List.length_append, List.length_reverse, List.reverse_append,
    List.reverse_reverse, ← Nat.add_assoc, ← List.append_assoc] at h₁ h₂ h₃
  rw [bind_ok h₁, bind_ok h₂, h₃]

end Coio.InplaceVector
