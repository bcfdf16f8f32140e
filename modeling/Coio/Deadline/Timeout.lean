import Coio.Deadline.Model
import Coio.TimerQueue.Refinement

namespace Coio.Deadline
open Signed
set_option autoImplicit true

/-- What the timeout of `epoll_wait` is for. -/
structure EpollWaits (deadline now : Int64) : Prop where
  zero : (epoll_timeout true (some deadline) now).toInt = 0 ↔ deadline ≤ now
  nonneg : 0 ≤ (epoll_timeout true (some deadline) now).toInt
  le_max : (epoll_timeout true (some deadline) now).toInt ≤ 2 ^ 31 - 1
  rounded : now < deadline →
    ∃ msec, IsLeast {k : Int | deadline.toInt - now.toInt ≤ k * 1000000} msec ∧
      (epoll_timeout true (some deadline) now).toInt = min msec (2 ^ 31 - 1)

/-- What the timeout of `io_uring_wait_cqe_timeout` is for. -/
def UringWaits (deadline now : Int64) : Prop :=
  ∃ timeout, uring_timeout true (some deadline) now = some timeout ∧
    0 ≤ timeout.tv_sec.toInt ∧ 0 ≤ timeout.tv_nsec.toInt ∧ timeout.tv_nsec.toInt < 1000000000 ∧
    (timeout.tv_sec.toInt = 0 ∧ timeout.tv_nsec.toInt = 0 ↔ deadline ≤ now) ∧
    (now < deadline →
      ∃ usec, IsLeast {k : Int | deadline.toInt - now.toInt ≤ k * 1000} usec ∧
        timeout.tv_sec.toInt * 1000000000 + timeout.tv_nsec.toInt = usec * 1000)

theorem toInt_epoll_timeout (deadline now : Int64) :
    (epoll_timeout true (some deadline) now).toInt =
      max 0 (min (ceil 1000000 (deadline - now)).toInt (2 ^ 31 - 1)) := by
  simp only [epoll_timeout, if_true, clamp, Int64.lt_iff_toInt_lt]
  generalize ceil 1000000 (deadline - now) = msec
  have hmax : Int32.maxValue.toInt64.toInt = 2 ^ 31 - 1 := by decide
  have hzero : (0 : Int64).toInt = 0 := rfl
  by_cases hlo : msec.toInt < (0 : Int64).toInt
  · rw [if_pos hlo, toInt_toInt32_of_le (by decide) (by decide)]
    omega
  rw [if_neg hlo]
  by_cases hhi : Int32.maxValue.toInt64.toInt < msec.toInt
  · rw [if_pos hhi, toInt_toInt32_of_le (by decide) (by decide)]
    omega
  · rw [if_neg hhi, toInt_toInt32_of_le (by omega) (by omega)]
    omega

/-- The seconds and nanoseconds of a number of microseconds. -/
theorem uring_timeout_eq (deadline now : Int64) : ∃ timeout,
    uring_timeout true (some deadline) now = some timeout ∧
      timeout.tv_sec.toInt = max (ceil 1000 (deadline - now)).toInt 0 / 1000000 ∧
      timeout.tv_nsec.toInt = max (ceil 1000 (deadline - now)).toInt 0 % 1000000 * 1000 := by
  have hmax := toInt_max (ceil 1000 (deadline - now)) 0
  have hzero : (0 : Int64).toInt = 0 := rfl
  have hmillion : (1000000 : Int64).toInt = 1000000 := rfl
  refine ⟨_, rfl, ?_, ?_⟩
  · rw [Int64.toInt_div_of_ne_right _ _ (by decide), hmax, hzero, hmillion]
    exact Int.tdiv_eq_ediv_of_nonneg (le_max_right _ _)
  · have hmod : (max (ceil 1000 (deadline - now)) 0 % 1000000).toInt =
        max (ceil 1000 (deadline - now)).toInt 0 % 1000000 := by
      rw [Int64.toInt_mod, hmax, hzero, hmillion]
      exact Int.tmod_eq_emod_of_nonneg (le_max_right _ _)
    have hthousand : (1000 : Int64).toInt = 1000 := rfl
    rw [toInt_mul_of_fits, hmod, hthousand]
    rw [hmod, hthousand, Fits]
    omega

/-- The timeout is 0 where the wrapped difference is not positive. -/
theorem epoll_timeout_eq_zero (deadline now : Int64) :
    (epoll_timeout true (some deadline) now).toInt = 0 ↔ (deadline - now).toInt ≤ 0 := by
  rw [← ceil_nonpos_iff (u := 1000000) (by decide), toInt_epoll_timeout]
  omega

theorem EpollWaits.of_fits {deadline now : Int64} (h : Fits (deadline.toInt - now.toInt)) :
    EpollWaits deadline now := by
  have hsub := toInt_sub_of_fits h
  have htimeout := toInt_epoll_timeout deadline now
  have hzero := epoll_timeout_eq_zero deadline now
  rw [hsub] at hzero
  refine ⟨?_, by omega, by omega, fun hlt => ⟨(ceil 1000000 (deadline - now)).toInt, ?_, ?_⟩⟩
  · rw [hzero, Int64.le_iff_toInt_le]
    omega
  · rw [← hsub]
    exact isLeast_ceil (u := 1000000) (by decide) _
  · rw [Int64.lt_iff_toInt_lt] at hlt
    omega

theorem UringWaits.of_fits {deadline now : Int64} (h : Fits (deadline.toInt - now.toInt)) :
    UringWaits deadline now := by
  have hsub := toInt_sub_of_fits h
  have hsign := ceil_nonpos_iff (u := 1000) (by decide) (deadline - now)
  obtain ⟨timeout, htimeout, hsec, hnsec⟩ := uring_timeout_eq deadline now
  rw [hsub] at hsign
  refine ⟨timeout, htimeout, by omega, by omega, by omega, ?_,
    fun hlt => ⟨(ceil 1000 (deadline - now)).toInt, ?_, ?_⟩⟩
  · rw [Int64.le_iff_toInt_le]
    omega
  · rw [← hsub]
    exact isLeast_ceil (u := 1000) (by decide) _
  · rw [Int64.lt_iff_toInt_lt] at hlt
    omega

/-- The timeouts are right exactly where the remaining time is representable. -/
theorem waits_iff (deadline now : Int64) :
    (EpollWaits deadline now ↔ Fits (deadline.toInt - now.toInt)) ∧
      (UringWaits deadline now ↔ Fits (deadline.toInt - now.toInt)) := by
  refine ⟨⟨fun h => ?_, .of_fits⟩, ⟨fun h => ?_, .of_fits⟩⟩
  · by_contra hfits
    have hzero := h.zero.symm.trans (epoll_timeout_eq_zero deadline now)
    rw [Int64.le_iff_toInt_le] at hzero
    have hsign := sign_of_not_fits hfits
    simp only [Int64.lt_iff_toInt_lt] at hsign
    omega
  · by_contra hfits
    obtain ⟨timeout, htimeout, -, -, -, hzero, -⟩ := h
    obtain ⟨timeout', htimeout', hsec, hnsec⟩ := uring_timeout_eq deadline now
    obtain rfl := Option.some.inj (htimeout.symm.trans htimeout')
    have hceil := ceil_nonpos_iff (u := 1000) (by decide) (deadline - now)
    rw [Int64.le_iff_toInt_le] at hzero
    have hsign := sign_of_not_fits hfits
    simp only [Int64.lt_iff_toInt_lt] at hsign
    omega

/-- As long as the remaining time of the first timer is representable, no timer of the queue is
waited for longer than it takes, rounded up. -/
theorem wait_lt [DecidableEq Op] {q : TimerQueue Op Int64} {S : Finset Op}
    (h : TimerQueue.Run q S) (hx : x ∈ S)
    (hfits : ∀ d, q.earliest = some d → Fits (d.toInt - now.toInt)) :
    (epoll_timeout true q.earliest now).toInt * 1000000 <
        max ((q.deadline x).toInt - now.toInt) 0 + 1000000 ∧
      ∃ timeout, uring_timeout true q.earliest now = some timeout ∧
        timeout.tv_sec.toInt * 1000000000 + timeout.tv_nsec.toInt <
          max ((q.deadline x).toInt - now.toInt) 0 + 1000 := by
  obtain ⟨d, hd, hle⟩ := h.represents.earliest_le hx
  rw [Int64.le_iff_toInt_le] at hle
  have hsub := toInt_sub_of_fits (hfits d hd)
  rw [hd]
  refine ⟨?_, ?_⟩
  · have hceil : (ceil 1000000 (d - now)).toInt * 1000000 < (d - now).toInt + 1000000 :=
      ceil_mul_lt (u := 1000000) (by decide) _
    have htimeout := toInt_epoll_timeout d now
    omega
  · have hceil : (ceil 1000 (d - now)).toInt * 1000 < (d - now).toInt + 1000 :=
      ceil_mul_lt (u := 1000) (by decide) _
    obtain ⟨timeout, htimeout, hsec, hnsec⟩ := uring_timeout_eq d now
    exact ⟨timeout, htimeout, by omega⟩

/-- A deadline at the beginning of time is waited for as long as can be. -/
theorem waits_wraps :
    ¬ ∀ deadline now, EpollWaits deadline now ∧ UringWaits deadline now := by
  intro h
  have hzero := (h Int64.minValue 1).1.zero
  exact absurd (hzero.2 (by decide)) (by decide)

end Coio.Deadline
