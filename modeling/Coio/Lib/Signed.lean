import Mathlib.Algebra.Group.Int.Defs
import Mathlib.Algebra.Group.Nat.Defs
import Mathlib.Order.Bounds.Defs
import Mathlib.Order.Lattice
import Mathlib.Tactic.Common
import Mathlib.Tactic.Linarith

namespace Signed
set_option autoImplicit true

instance instLinearOrderInt64 : LinearOrder Int64 where
  le_refl := Int64.le_refl
  le_trans _ _ _ := Int64.le_trans
  le_antisymm _ _ := Int64.le_antisymm
  le_total := Int64.le_total
  lt_iff_le_not_ge a b := by
    rw [Int64.lt_iff_toInt_lt, Int64.le_iff_toInt_le, Int64.le_iff_toInt_le]
    omega
  toDecidableLE := inferInstance
  toDecidableLT := inferInstance

/-- The values of a 64-bit signed number. -/
def Fits (x : Int) : Prop := -2 ^ 63 ≤ x ∧ x < 2 ^ 63

instance : Decidable (Fits x) := inferInstanceAs (Decidable (_ ∧ _))

theorem fits_toInt (x : Int64) : Fits x.toInt := ⟨x.le_toInt, x.toInt_lt⟩

theorem bmod_of_fits (h : Fits x) : x.bmod (2 ^ 64) = x := by
  obtain ⟨h₁, h₂⟩ := h
  exact Int.bmod_eq_of_le (by omega) (by omega)

theorem toInt_add_of_fits {a b : Int64} (h : Fits (a.toInt + b.toInt)) :
    (a + b).toInt = a.toInt + b.toInt := by
  rw [Int64.toInt_add, bmod_of_fits h]

theorem toInt_sub_of_fits {a b : Int64} (h : Fits (a.toInt - b.toInt)) :
    (a - b).toInt = a.toInt - b.toInt := by
  rw [Int64.toInt_sub, bmod_of_fits h]

theorem toInt_mul_of_fits {a b : Int64} (h : Fits (a.toInt * b.toInt)) :
    (a * b).toInt = a.toInt * b.toInt := by
  rw [Int64.toInt_mul, bmod_of_fits h]

/-- A difference that is not representable has the wrong sign. -/
theorem sign_of_not_fits {a b : Int64} (h : ¬ Fits (a.toInt - b.toInt)) :
    (b < a ∧ (a - b).toInt < 0) ∨ (a < b ∧ 0 < (a - b).toInt) := by
  have ha := fits_toInt a
  have hb := fits_toInt b
  rw [Int64.toInt_sub, Int64.lt_iff_toInt_lt, Int64.lt_iff_toInt_lt, Int.bmod_def]
  unfold Fits at *
  split <;> omega

/-- Division truncates towards zero. -/
theorem tdiv_mul_bounds (x : Int) (hu : 0 < u) :
    -u < x - x.tdiv u * u ∧ x - x.tdiv u * u < u ∧
      (0 ≤ x → 0 ≤ x - x.tdiv u * u) ∧ (x < 0 → x - x.tdiv u * u ≤ 0) := by
  have hsum := Int.tmod_add_tdiv_mul x u
  have hlt := Int.tmod_lt_of_pos x hu
  have hgt := Int.lt_tmod_of_pos x hu
  refine ⟨by omega, by omega, fun h => ?_, fun h => ?_⟩
  · have hr := Int.tmod_nonneg u h
    omega
  · have hr := Int.tmod_nonneg u (show 0 ≤ -x by omega)
    rw [Int.neg_tmod] at hr
    omega

/-- `std::chrono::ceil` to a duration whose ticks are `unit` of the given ones. -/
def ceil (unit d : Int64) : Int64 :=
  let whole := d / unit
  if whole * unit < d then whole + 1 else whole

/-- The quotient, and the product of both, stay representable. -/
theorem toInt_quotient {u : Int64} (hu : 0 < u.toInt) (d : Int64) :
    (d / u).toInt = d.toInt.tdiv u.toInt ∧
      (d / u * u).toInt = d.toInt.tdiv u.toInt * u.toInt := by
  have hd := fits_toInt d
  have hne : u ≠ -1 := by
    rintro rfl
    exact absurd hu (by decide)
  obtain ⟨hlo, hhi, hpos, hneg⟩ := tdiv_mul_bounds d.toInt hu
  have hdiv := Int64.toInt_div_of_ne_right d u hne
  refine ⟨hdiv, ?_⟩
  rw [toInt_mul_of_fits, hdiv]
  rw [hdiv]
  have hu' := fits_toInt u
  unfold Fits at *
  by_cases h : 0 ≤ d.toInt <;> omega

theorem isLeast_ceil {u : Int64} (hu : 0 < u.toInt) (d : Int64) :
    IsLeast {k : Int | d.toInt ≤ k * u.toInt} (ceil u d).toInt := by
  obtain ⟨hlo, hhi, hpos, hneg⟩ := tdiv_mul_bounds d.toInt hu
  obtain ⟨hdiv, hmul⟩ := toInt_quotient hu d
  -- the least multiple is where the one before is too small
  have hleast {k : Int} (h₁ : d.toInt ≤ k * u.toInt) (h₂ : (k - 1) * u.toInt < d.toInt) :
      IsLeast {k : Int | d.toInt ≤ k * u.toInt} k := by
    refine ⟨h₁, fun j (hj : d.toInt ≤ j * u.toInt) => ?_⟩
    have hlt : k - 1 < j := lt_of_mul_lt_mul_right (by omega) hu.le
    omega
  simp only [ceil, Int64.lt_iff_toInt_lt, hmul]
  by_cases hlt : d.toInt.tdiv u.toInt * u.toInt < d.toInt
  · have hnonneg : 0 ≤ d.toInt := by
      by_contra h
      have := hneg (by omega)
      omega
    have hquot : 0 ≤ d.toInt.tdiv u.toInt := Int.tdiv_nonneg hnonneg hu.le
    have hle : d.toInt.tdiv u.toInt ≤ d.toInt.tdiv u.toInt * u.toInt :=
      le_mul_of_one_le_right hquot hu
    have hd := fits_toInt d
    have hsucc : (d / u + 1).toInt = d.toInt.tdiv u.toInt + 1 := by
      have hfits : Fits ((d / u).toInt + (1 : Int64).toInt) := by
        rw [hdiv, show (1 : Int64).toInt = 1 from rfl]
        unfold Fits at *
        omega
      rw [toInt_add_of_fits hfits, hdiv]
      rfl
    rw [if_pos hlt, hsucc]
    refine hleast ?_ ?_
    · rw [add_mul]
      omega
    · rw [add_sub_cancel_right]
      exact hlt
  · rw [if_neg hlt, hdiv]
    refine hleast (not_lt.1 hlt) ?_
    rw [sub_mul]
    omega

/-- A ceiling has the sign of the duration, as far as it is positive. -/
theorem ceil_nonpos_iff {u : Int64} (hu : 0 < u.toInt) (d : Int64) :
    (ceil u d).toInt ≤ 0 ↔ d.toInt ≤ 0 := by
  have hle : d.toInt ≤ (ceil u d).toInt * u.toInt := (isLeast_ceil hu d).1
  have hleast := (isLeast_ceil hu d).2
  constructor
  · intro h
    exact hle.trans (mul_nonpos_of_nonpos_of_nonneg h hu.le)
  · intro h
    exact hleast (show d.toInt ≤ 0 * u.toInt by omega)

/-- A ceiling is less than a tick above the duration. -/
theorem ceil_mul_lt {u : Int64} (hu : 0 < u.toInt) (d : Int64) :
    (ceil u d).toInt * u.toInt < d.toInt + u.toInt := by
  by_contra h
  have hle : d.toInt ≤ ((ceil u d).toInt - 1) * u.toInt := by
    rw [sub_mul]
    omega
  have hleast := (isLeast_ceil hu d).2 hle
  omega

theorem ceil_one (d : Int64) : ceil 1 d = d := by
  have hle : d.toInt ≤ (ceil 1 d).toInt * 1 := (isLeast_ceil (u := 1) (by decide) d).1
  have hleast := (isLeast_ceil (u := 1) (by decide) d).2 (show d.toInt ≤ d.toInt * 1 by omega)
  exact Int64.toInt_inj.1 (by omega)

theorem toInt_max (a b : Int64) : (max a b).toInt = max a.toInt b.toInt := by
  rcases le_total a b with h | h
  · rw [max_eq_right h, max_eq_right (Int64.le_iff_toInt_le.1 h)]
  · rw [max_eq_left h, max_eq_left (Int64.le_iff_toInt_le.1 h)]

theorem toInt_toInt32_of_le {x : Int64} (h₁ : -2 ^ 31 ≤ x.toInt) (h₂ : x.toInt < 2 ^ 31) :
    x.toInt32.toInt = x.toInt := by
  rw [Int64.toInt_toInt32]
  exact Int.bmod_eq_of_le (by omega) (by omega)

end Signed
