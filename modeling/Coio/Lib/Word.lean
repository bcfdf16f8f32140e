import Mathlib.Algebra.Group.Nat.Defs
import Mathlib.Tactic.Common

namespace Word
set_option autoImplicit true

/-- The number of values of `std::size_t`. -/
def modulus : Nat := 2 ^ 64

/-- Addition of values of `std::size_t`. -/
def add (a b : Nat) : Nat := if a + b < modulus then a + b else a + b - modulus

/-- Subtraction of values of `std::size_t`. -/
def sub (a b : Nat) : Nat := if b ≤ a then a - b else a + modulus - b

theorem add_of_lt (h : a + b < modulus) : add a b = a + b := if_pos h

theorem sub_of_le (h : b ≤ a) : sub a b = a - b := if_pos h

theorem modulus_pos : 0 < modulus := by decide

theorem add_lt (ha : a < modulus) (hb : b < modulus) : add a b < modulus := by
  rw [add]
  split <;> omega

theorem sub_lt (ha : a < modulus) (hb : b < modulus) : sub a b < modulus := by
  rw [sub]
  split <;> omega

theorem add_sub_self (ha : a < modulus) (hb : b < modulus) : sub (add a b) a = b := by
  rw [add, sub]
  split <;> split <;> omega

theorem sub_self (a : Nat) : sub a a = 0 := by
  rw [sub_of_le (Nat.le_refl a), Nat.sub_self]

theorem add_sub_right_comm (ha : a < modulus) (hb : b < modulus) (hc : c < modulus) :
    sub (add a c) b = add (sub a b) c := by
  simp only [add, sub]
  split_ifs <;> omega

theorem sub_add_eq (ha : a < modulus) (hb : b < modulus) (hc : c < modulus) :
    sub a (add b c) = sub (sub a b) c := by
  simp only [add, sub]
  split_ifs <;> omega

theorem sub_eq_zero (hb : b < modulus) : sub a b = 0 ↔ a = b := by
  rw [sub]
  split <;> omega

theorem add_eq_mod (ha : a < modulus) (hb : b < modulus) : add a b = (a + b) % modulus := by
  by_cases h : a + b < modulus
  · rw [add_of_lt h, Nat.mod_eq_of_lt h]
  · rw [add, if_neg h, Nat.mod_eq_sub_mod (by omega), Nat.mod_eq_of_lt (by omega)]

theorem sub_eq_mod (ha : a < modulus) (hb : b < modulus) :
    sub a b = (a + modulus - b) % modulus := by
  by_cases h : b ≤ a
  · rw [sub_of_le h, Nat.mod_eq_sub_mod (by omega), Nat.mod_eq_of_lt (by omega)]
    omega
  · rw [sub, if_neg h, Nat.mod_eq_of_lt (by omega)]

end Word
