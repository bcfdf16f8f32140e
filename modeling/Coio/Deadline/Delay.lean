import Coio.Deadline.Timeout

namespace Coio.Deadline
open Signed
set_option autoImplicit true

theorem schedule_after_eq (now duration : Int64) :
    schedule_after now duration = now + duration := by
  rw [schedule_after, ceil_one]

theorem async_wait_eq (now duration : Int64) : async_wait now duration = now + duration := by
  rw [async_wait, schedule_after_eq, ceil_one]

/-- The deadline of a delay that is too long is in the past. -/
theorem schedule_after_wraps {t₀ d : Int64} (hd : 0 ≤ d) (h : ¬ t₀.toInt + d.toInt < 2 ^ 63) :
    schedule_after t₀ d ≤ t₀ ∧ 0 < d := by
  have ht := fits_toInt t₀
  have hd' := fits_toInt d
  rw [Int64.le_iff_toInt_le, show (0 : Int64).toInt = 0 from rfl] at hd
  rw [schedule_after_eq, Int64.le_iff_toInt_le, Int64.lt_iff_toInt_lt, Int64.toInt_add,
    Int.bmod_def, show (0 : Int64).toInt = 0 from rfl]
  unfold Fits at *
  split <;> omega

theorem schedule_after_fits {t₀ d : Int64} (hd : 0 ≤ d) (h : t₀.toInt + d.toInt < 2 ^ 63) :
    (schedule_after t₀ d).toInt = t₀.toInt + d.toInt := by
  have ht := fits_toInt t₀
  rw [Int64.le_iff_toInt_le, show (0 : Int64).toInt = 0 from rfl] at hd
  unfold Fits at ht
  rw [schedule_after_eq, toInt_add_of_fits ⟨by omega, h⟩]

variable [DecidableEq Op]

/-- No queue gives the timer `x` away, that was started at `t₀` for the time `d`, when less time has
passed. -/
def NeverEarly (x : Op) (t₀ d : Int64) : Prop :=
  ∀ (q : TimerQueue Op Int64) (S : Finset Op), TimerQueue.Run q S → x ∈ S →
    q.deadline x = schedule_after t₀ d → ∀ (t : Int64) (fuel n : Nat), S.card ≤ fuel → S.card ≤ n →
      ∃ q' ready, q.takeReadyTimers fuel t n [] = some (q', ready) ∧
        (t.toInt - t₀.toInt < d.toInt → x ∉ ready)

/-- A timer whose deadline has wrapped around is due at once when it is alone in the queue. -/
theorem NeverEarly.fits {x : Op} {t₀ d : Int64} (h : NeverEarly x t₀ d) (hd : 0 ≤ d) :
    t₀.toInt + d.toInt < 2 ^ 63 := by
  by_contra hwrap
  obtain ⟨hle, hpos⟩ := schedule_after_wraps hd hwrap
  rw [Int64.lt_iff_toInt_lt, show (0 : Int64).toInt = 0 from rfl] at hpos
  have hrun := (TimerQueue.Run.init fun _ : Op => schedule_after t₀ d).add (Finset.notMem_empty x)
  have hdeadline : ((({ deadline := fun _ => schedule_after t₀ d } : TimerQueue Op Int64).add
      x).1).deadline x = schedule_after t₀ d := rfl
  obtain ⟨q', ready, htake, hnot⟩ := h _ _ hrun (Finset.mem_insert_self x _) hdeadline t₀ 1 1
    (Nat.le_refl 1) (Nat.le_refl 1)
  obtain ⟨q'', ready', htake', -, -, -, hmem, -⟩ := hrun.represents.takeReadyTimers t₀ []
    (Nat.le_refl 1) (Nat.le_refl 1)
  rw [htake, List.nil_append] at htake'
  cases htake'
  exact hnot (by omega) ((hmem x).2 ⟨Finset.mem_insert_self x _, hle⟩)

/-- A timer does not fire early exactly where its deadline is representable. -/
theorem never_early_iff (x : Op) (t₀ : Int64) (hd : 0 ≤ d) :
    NeverEarly x t₀ d ↔ t₀.toInt + d.toInt < 2 ^ 63 := by
  refine ⟨fun h => h.fits hd, fun hfits q S hrun hx hdeadline t fuel n hfuel hn => ?_⟩
  obtain ⟨q', ready, htake, -, -, -, hmem, -⟩ := hrun.represents.takeReadyTimers t [] hfuel hn
  refine ⟨q', ready, htake, fun hlt hready => ?_⟩
  have hle := ((hmem x).1 hready).2
  rw [hdeadline, Int64.le_iff_toInt_le, schedule_after_fits hd hfits] at hle
  omega

/-- A wait for a second. -/
theorem never_early_second : NeverEarly () 5 1000000000 :=
  (never_early_iff () 5 (by decide)).2 (by decide)

/-- A wait for as long as can be said fires at once. -/
theorem early_forever : ¬ ∀ t₀ d : Int64, 0 ≤ d → NeverEarly () t₀ d := by
  intro h
  have hfits := (h 1 Int64.maxValue (by decide)).fits (by decide)
  exact absurd hfits (by decide)

end Coio.Deadline
