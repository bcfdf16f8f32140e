import Mathlib.Data.List.Basic

/-! First occurrences of a word in a growing list. -/

namespace Search
set_option autoImplicit true

/-- An occurrence of `d` in `t` ends at `p`. -/
def EndsAt (d t : List α) (p : Nat) : Prop := p ≤ t.length ∧ d <:+ t.take p

/-- The first occurrence of `d` in `t` ends at `p`. -/
def FirstEnd (d t : List α) (p : Nat) : Prop := EndsAt d t p ∧ ∀ q < p, ¬ EndsAt d t q

/-- No occurrence of `d` in `t` ends at `n` or before. -/
def Clear (d t : List α) (n : Nat) : Prop := ∀ p ≤ n, ¬ EndsAt d t p

theorem endsAt_iff : EndsAt d t p ↔ d.length ≤ p ∧ p ≤ t.length ∧
    (t.drop (p - d.length)).take d.length = d := by
  constructor
  · rintro ⟨hp, r, hr⟩
    have hl := congrArg List.length hr
    rw [List.length_append, List.length_take, Nat.min_eq_left hp] at hl
    have hr' : r.length = p - d.length := by omega
    refine ⟨by omega, hp, ?_⟩
    have hd : (t.take p).drop r.length = d := by rw [← hr, List.drop_left]
    rw [hr', List.drop_take] at hd
    rwa [show p - (p - d.length) = d.length by omega] at hd
  · rintro ⟨h₁, h₂, h₃⟩
    refine ⟨h₂, t.take (p - d.length), ?_⟩
    calc t.take (p - d.length) ++ d
        = t.take (p - d.length) ++ (t.drop (p - d.length)).take d.length := by rw [h₃]
      _ = t.take (p - d.length + d.length) := List.take_add.symm
      _ = t.take p := by rw [Nat.sub_add_cancel h₁]

/-- An occurrence does not depend on what follows it. -/
theorem endsAt_of_initial (h : t <+: u) (hp : p ≤ t.length) : EndsAt d u p ↔ EndsAt d t p := by
  obtain ⟨r, rfl⟩ := h
  simp only [EndsAt, List.take_append_of_le_length hp, List.length_append]
  have : p ≤ t.length + r.length := by omega
  simp only [hp, this]

theorem FirstEnd.of_initial (h : t <+: u) (hf : FirstEnd d t p) : FirstEnd d u p := by
  have hp := hf.1.1
  refine ⟨(endsAt_of_initial h hp).2 hf.1, fun q hq hu => hf.2 q hq ?_⟩
  exact (endsAt_of_initial h (by omega)).1 hu

theorem FirstEnd.to_initial (h : t <+: u) (hf : FirstEnd d u p) (hp : p ≤ t.length) :
    FirstEnd d t p := by
  refine ⟨(endsAt_of_initial h hp).1 hf.1, fun q hq hu => hf.2 q hq ?_⟩
  exact (endsAt_of_initial h (by omega)).2 hu

theorem FirstEnd.unique (h : FirstEnd d t p) (h' : FirstEnd d t q) : p = q := by
  rcases Nat.lt_trichotomy p q with hl | he | hg
  · exact absurd h.1 (h'.2 p hl)
  · exact he
  · exact absurd h'.1 (h.2 q hg)

theorem Clear.of_initial (h : t <+: u) (hc : Clear d t n) (hn : n ≤ t.length) : Clear d u n :=
  fun p hp hu => hc p hp ((endsAt_of_initial h (by omega)).1 hu)

theorem FirstEnd.length_le (hf : FirstEnd d t p) : d.length ≤ p := (endsAt_iff.1 hf.1).1

theorem clear_zero (hd : d ≠ []) : Clear d t 0 := by
  intro p hp he
  have := (endsAt_iff.1 he).1
  have := List.length_pos_iff.2 hd
  omega

variable [DecidableEq α] {d t : List α}

/-- An occurrence of `d` starts at `i`. -/
def startsAt (d t : List α) (i : Nat) : Bool := (t.drop i).take d.length = d

/-- The first start of an occurrence among the `n` positions from `i` on. -/
def find (d t : List α) (i n : Nat) : Option Nat := (List.range' i n).find? (startsAt d t)

/-- A search that leaves out only starts of occurrences known not to exist finds the first one. -/
theorem find_some (hc : Clear d t pos) (hs : start + d.length ≤ pos + 1 ∨ start = 0)
    (hn : start + n + d.length ≤ t.length + 1) (hf : find d t start n = some i) :
    FirstEnd d t (i + d.length) := by
  obtain ⟨hp, hmem, hbefore⟩ := List.find?_range'_eq_some.1 hf
  have hi := List.mem_range'_1.1 hmem
  refine ⟨endsAt_iff.2 ⟨by omega, by omega, ?_⟩, fun q hq he => ?_⟩
  · rw [Nat.add_sub_cancel]
    exact of_decide_eq_true hp
  · obtain ⟨h₁, h₂, h₃⟩ := endsAt_iff.1 he
    by_cases hlt : q - d.length < start
    · exact hc q (by omega) he
    · have := hbefore (q - d.length) (by omega) (by omega)
      simp only [startsAt, h₃, decide_true, Bool.not_true, Bool.false_eq_true] at this

theorem find_none (hc : Clear d t pos) (hs : start + d.length ≤ pos + 1 ∨ start = 0)
    (hn : t.length + 1 ≤ start + n + d.length) (hf : find d t start n = none) :
    Clear d t t.length := by
  intro q hq he
  obtain ⟨h₁, h₂, h₃⟩ := endsAt_iff.1 he
  by_cases hlt : q - d.length < start
  · exact hc q (by omega) he
  · have := List.find?_range'_eq_none.1 hf (q - d.length) (by omega) (by omega)
    simp only [startsAt, h₃, decide_true, Bool.not_true, Bool.false_eq_true] at this

end Search
