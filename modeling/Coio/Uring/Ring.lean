import Coio.Uring.Model

namespace Coio.Uring
open Transition
open Function (update)
set_option autoImplicit true

/-- The thread holds the lock at these steps. -/
def RingPc.Inside : RingPc ι → Bool
  | .idle | .lock _ => false
  | _ => true

def ConsumerPc.Inside : ConsumerPc ι → Bool
  | .submit | .unlock => true
  | _ => false

/-- The flag is set at these steps. -/
def ConsumerPc.Pulling : ConsumerPc ι → Bool
  | .recheck | .lock | .submit | .unlock | .wait | .peek | .clear => true
  | _ => false

/-- What the thread at a step knows: a retry follows a submission, and while the consumer waits the
flag was seen and nothing is left behind. -/
def RingPc.Fine (sq : List (Entry ι)) (pulled : Prop) : RingPc ι → Prop
  | .get _ retry => retry ≠ 3 → sq = []
  | .test _ value => pulled → value = true
  | .unlock _ _ => pulled → sq = []
  | _ => True

/-- The invariant of the submission queue, which whoever holds the lock may break for a while. -/
structure Ring (s : State ι κ) : Prop where
  pending : s.pending = s.sq.length
  mtx : ∀ p, (s.ring p).Inside = true → s.mtx = some p
  mtx_consumer : s.consumer.Inside = true → s.mtx = some .consumer
  no_consumer : s.ring .consumer = .idle
  pulling : s.consumer.Pulling = true → s.pulling = true
  fine : ∀ p, (s.ring p).Fine s.sq (s.consumer.Pulled = true)
  flushed : s.consumer = .unlock → s.sq = []
  free : s.mtx = none → s.consumer.Pulled = true → s.sq = []

theorem RingPc.Fine.of_outside {pc : RingPc ι} (h : pc.Inside = false) :
    pc.Fine entries pulled := by
  cases pc with
  | idle | lock => trivial
  | _ => cases h

theorem RingPc.Fine.imp {pc : RingPc ι} (h : pc.Fine entries P) (hp : Q → P) :
    pc.Fine entries Q := by
  cases pc with
  | test job value => exact fun hq => h (hp hq)
  | unlock job r => exact fun hq => h (hp hq)
  | get job retry => exact h
  | _ => trivial

variable [DecidableEq ι] [DecidableEq κ] {s t : State ι κ}

theorem Ring.init (stoppable : ι → Bool) :
    Ring (system κ entries batch stoppable).init := by
  constructor <;> simp [system, RingPc.Inside, ConsumerPc.Inside, ConsumerPc.Pulling,
    ConsumerPc.Pulled, RingPc.Fine]

omit [DecidableEq ι] [DecidableEq κ] in
/-- Only one thread is inside of the lock. -/
theorem Ring.alone (h : Ring s) (hp : (s.ring p).Inside = true) (hq : q ≠ p) :
    (s.ring q).Inside = false := by
  by_contra hin
  have hmp := h.mtx p hp
  rw [h.mtx q (Bool.of_not_eq_false hin)] at hmp
  exact hq (Option.some.inj hmp)

omit [DecidableEq ι] [DecidableEq κ] in
theorem Ring.nobody (h : Ring s) (hm : s.mtx = none ∨ s.mtx = some .consumer) (q : Party ι κ) :
    (s.ring q).Inside = false := by
  by_contra hin
  have hmq := h.mtx q (Bool.of_not_eq_false hin)
  rcases hm with hm | hm
  · rw [hm] at hmq
    cases hmq
  · rw [hm] at hmq
    cases hmq
    rw [h.no_consumer] at hin
    exact hin rfl

omit [DecidableEq ι] [DecidableEq κ] in
/-- While a thread is inside of the lock the consumer is not. -/
theorem Ring.consumer_outside (h : Ring s) (hp : (s.ring p).Inside = true) :
    s.consumer.Inside = false ∧ p ≠ .consumer := by
  have hne : p ≠ .consumer := by
    rintro rfl
    rw [h.no_consumer] at hp
    cases hp
  refine ⟨?_, hne⟩
  by_contra hin
  have hmc := h.mtx_consumer (Bool.of_not_eq_false hin)
  rw [h.mtx p hp] at hmc
  exact hne (Option.some.inj hmc)

/-- A step of the thread that holds the lock. -/
theorem Ring.holder (h : Ring s) (hp : (s.ring p).Inside = true) {sq : List (Entry ι)}
    {m : Option (Party ι κ)} (hlen : n = sq.length)
    (hm : m = some p ∨ m = none ∧ pc.Inside = false ∧ (s.consumer.Pulled = true → sq = []))
    (hfine : pc.Fine sq (s.consumer.Pulled = true)) :
    Ring { s with ring := update s.ring p pc, mtx := m, sq := sq, pending := n } := by
  obtain ⟨hout, hne⟩ := h.consumer_outside hp
  refine { h with
    pending := hlen, mtx := fun q hq => ?_, mtx_consumer := fun hc => ?_, no_consumer := ?_,
    fine := fun q => ?_, flushed := fun hc => ?_, free := fun hn hc => ?_ }
  · by_cases hqp : q = p
    · subst hqp
      rcases hm with hm | ⟨-, hpc, -⟩
      · exact hm
      · simp [hpc] at hq
    · simp [Function.update_of_ne hqp, h.alone hp hqp] at hq
  · rw [show s.consumer.Inside = true from hc] at hout
    cases hout
  · exact (Function.update_of_ne hne.symm ..).trans h.no_consumer
  · by_cases hqp : q = p
    · subst hqp
      simpa using hfine
    · simpa [Function.update_of_ne hqp] using .of_outside (h.alone hp hqp)
  · rw [show s.consumer = .unlock from hc] at hout
    cases hout
  · rcases hm with hm | ⟨-, -, hsq⟩
    · rw [hm] at hn
      cases hn
    · exact hsq hc

/-- A thread enters a call, or leaves it without the lock. -/
theorem Ring.outside (h : Ring s) (hp : (s.ring p).Inside = false) (hpc : pc.Inside = false)
    (hne : p ≠ .consumer) : Ring { s with ring := update s.ring p pc } := by
  refine { h with mtx := fun q hq => ?_, no_consumer := ?_, fine := fun q => ?_ }
  · by_cases hqp : q = p
    · subst hqp
      simp [hpc] at hq
    · simp only [Function.update_of_ne hqp] at hq
      exact h.mtx q hq
  · exact (Function.update_of_ne hne.symm ..).trans h.no_consumer
  · by_cases hqp : q = p
    · subst hqp
      simpa using .of_outside hpc
    · simpa [Function.update_of_ne hqp] using h.fine q

theorem Ring.lock (h : Ring s) (hm : s.mtx = none) (hne : p ≠ .consumer) :
    Ring { s with ring := update s.ring p (.get job 3), mtx := some p } := by
  refine { h with
    mtx := fun q hq => ?_, mtx_consumer := fun hc => ?_, no_consumer := ?_, fine := fun q => ?_,
    free := fun hn => ?_ }
  · by_cases hqp : q = p
    · rw [hqp]
    · simp [Function.update_of_ne hqp, h.nobody (.inl hm)] at hq
  · have := h.mtx_consumer hc
    rw [hm] at this
    cases this
  · exact (Function.update_of_ne hne.symm ..).trans h.no_consumer
  · by_cases hqp : q = p
    · subst hqp
      simp [RingPc.Fine]
    · simpa [Function.update_of_ne hqp] using h.fine q
  · cases hn

omit [DecidableEq ι] [DecidableEq κ] in
/-- The consumer goes on outside of the lock. -/
theorem Ring.consume (h : Ring s) (hc : c.Inside = false)
    (hp : c.Pulled = true → s.consumer.Pulled = true) (hpull : c.Pulling = true → b = true) :
    Ring { s with consumer := c, pulling := b } :=
  { h with
    mtx_consumer := fun hi => by rw [show c.Inside = true from hi] at hc; cases hc
    pulling := hpull
    fine := fun q => (h.fine q).imp hp
    flushed := fun hu => by rw [show c = .unlock from hu] at hc; cases hc
    free := fun hm hq => h.free hm (hp hq) }

omit [DecidableEq ι] [DecidableEq κ] in
/-- With what the counter says, `submit_sqes()` leaves no entry. -/
theorem Ring.submitSqes (h : Ring s) : s.submitSqes = { s with
    submitted := s.submitted ++ s.sq, flight := s.flight ++ s.sq, sq := [], pending := 0 } := by
  have hp := h.pending
  unfold State.submitSqes
  split
  · rename_i hzero
    have hsq : s.sq = [] := List.length_eq_zero_iff.1 (by omega)
    rw [hsq, List.append_nil, List.append_nil, ← hsq, ← hzero]
  · rw [hp, Nat.sub_self]

end Coio.Uring
