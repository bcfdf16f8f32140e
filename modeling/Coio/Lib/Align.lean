import Mathlib.Algebra.Group.Nat.Defs
import Mathlib.Tactic.Common

namespace Align
set_option autoImplicit true

/-- The least multiple of `m` from `n` on. -/
def up (n m : Nat) : Nat := (n + m - 1) / m * m

theorem dvd_up (n m : Nat) : m ∣ up n m := Nat.dvd_mul_left m _

theorem le_up (n : Nat) (hm : 0 < m) : n ≤ up n m := by
  have hlt := Nat.lt_div_mul_add hm (a := n + m - 1)
  unfold up
  omega

theorem up_lt (n : Nat) (hm : 0 < m) : up n m < n + m := by
  have hle := Nat.div_mul_le_self (n + m - 1) m
  unfold up
  omega

/-- A multiple that is not above `n` is not above the quotient's multiple. -/
theorem le_div_mul {k m n : Nat} (hd : m ∣ k) (hk : k ≤ n) : k ≤ n / m * m := by
  obtain ⟨c, rfl⟩ := hd
  by_cases hm : 0 < m
  · rw [Nat.mul_comm] at hk ⊢
    exact Nat.mul_le_mul_right m ((Nat.le_div_iff_mul_le hm).2 hk)
  · simp [Nat.eq_zero_of_not_pos hm]

theorem up_le (hm : 0 < m) (hd : m ∣ k) (hn : n ≤ k) : up n m ≤ k := by
  obtain ⟨c, rfl⟩ := hd
  have hlt := up_lt n hm
  have hle : up n m < m * (c + 1) := by
    rw [Nat.mul_succ]
    omega
  obtain ⟨b, hb⟩ := dvd_up n m
  rw [hb] at hle ⊢
  exact Nat.mul_le_mul_left m (Nat.lt_succ_iff.1 (Nat.lt_of_mul_lt_mul_left hle))

/-- An object of the size `s` and the alignment `a` fits behind `n` bytes into the blocks of the
alignment `d` that are counted for it, wherever they begin. -/
theorem up_add_le (ha : 0 < a) (hd : 0 < d) (had : a ∣ d ∨ d ∣ a) (hs : a ∣ s) (hp : d ∣ p) :
    up (p + n) a + s ≤ p + (n + s + max a d - 1) / d * d := by
  rcases had with had | had
  · have hmax : max a d = d := Nat.max_eq_right (Nat.le_of_dvd hd had)
    have hsum : a ∣ p + up (n + s) d :=
      Nat.dvd_add (Nat.dvd_trans had hp) (Nat.dvd_trans had (dvd_up _ _))
    have hle := le_up (n + s) hd
    have hup : up (p + n) a ≤ p + up (n + s) d - s :=
      up_le ha (Nat.dvd_sub hsum hs) (by omega)
    rw [hmax]
    change up (p + n) a + s ≤ p + up (n + s) d
    omega
  · have hmax : max a d = a := Nat.max_eq_left (Nat.le_of_dvd ha had)
    have hlt := up_lt (p + n) ha
    have hge := le_up (p + n) ha
    have hdvd : d ∣ up (p + n) a + s - p :=
      Nat.dvd_sub (Nat.dvd_add (Nat.dvd_trans had (dvd_up _ _)) (Nat.dvd_trans had hs)) hp
    have hle := le_div_mul hdvd (show up (p + n) a + s - p ≤ n + s + max a d - 1 by omega)
    omega

/-- Behind `n` bytes those blocks have room for the alignment. -/
theorem add_le_blocks (hd : 0 < d) (had : a ∣ d ∨ d ∣ a) (hs : a ≤ s) :
    n + a ≤ (n + s + max a d - 1) / d * d := by
  have hlt := Nat.lt_div_mul_add hd (a := n + s + max a d - 1)
  rcases had with had | had
  · have hle := Nat.le_of_dvd hd had
    have hmax : max a d = d := Nat.max_eq_right hle
    omega
  · by_cases ha : 0 < a
    · have hle := Nat.le_of_dvd ha had
      have hmax : max a d = a := Nat.max_eq_left hle
      omega
    · omega

theorem two_pow_dvd_or (i j : Nat) : 2 ^ i ∣ 2 ^ j ∨ 2 ^ j ∣ 2 ^ i :=
  (Nat.le_total i j).imp (Nat.pow_dvd_pow 2) (Nat.pow_dvd_pow 2)

end Align
