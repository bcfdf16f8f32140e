import Coio.Lib.Simulation

namespace Coio.Atomutex
open Transition
open Function (update)
set_option autoImplicit true

/-- The next step of a thread in `lock()` or in `unlock()`. A `blocked` thread is inside of
`flag_.wait(true)` and has seen the value that came after `seen` calls of `clear()`; the `clear()`
of a thread in `notify` was the `n`-th one. -/
inductive Pc
  | idle
  | testAndSet
  | wait
  | blocked (seen : Nat)
  | held
  | notify (n : Nat)
  deriving DecidableEq, Repr

/-- An `atomutex` with the threads `κ`. `clears` counts the calls of `clear()`, and `waiting` lists
the blocked threads with what they have seen. -/
structure State (κ : Type u) where
  flag_ : Bool := false
  clears : Nat := 0
  waiting : List (κ × Nat) := []
  pc : κ → Pc := fun _ => .idle

inductive Act (κ : Type u)
  | lock (k : κ)
  | tryLock (k : κ)
  | testAndSet (k : κ)
  | wait (k : κ)
  | spurious (k : κ)
  | unlock (k : κ)
  | notifyOne (k : κ) (target : Option κ)
  deriving DecidableEq, Repr

variable [DecidableEq κ]

def State.unblock (s : State κ) (k : κ) : State κ :=
  { s with waiting := s.waiting.filter (·.1 ≠ k), pc := update s.pc k .wait }

def step (s : State κ) : Act κ → Option (State κ)
  | .lock k => if s.pc k = .idle then some { s with pc := update s.pc k .testAndSet } else none
  | .tryLock k => if s.pc k = .idle then
      some { s with flag_ := true, pc := update s.pc k (if s.flag_ then .idle else .held) }
    else none
  | .testAndSet k => if s.pc k = .testAndSet then
      some { s with flag_ := true, pc := update s.pc k (if s.flag_ then .wait else .held) }
    else none
  -- the comparison with `true` and the block are one step
  | .wait k => if s.pc k = .wait then
      if s.flag_ then some { s with
        waiting := (k, s.clears) :: s.waiting, pc := update s.pc k (.blocked s.clears) }
      else some { s with pc := update s.pc k .testAndSet }
    else none
  -- a thread that is unblocked compares again
  | .spurious k => match s.pc k with
    | .blocked _ => some (s.unblock k)
    | _ => none
  | .unlock k => if s.pc k = .held then
      some { s with
        flag_ := false, clears := s.clears + 1, pc := update s.pc k (.notify (s.clears + 1)) }
    else none
  -- a thread may be unblocked if it has seen a value from before the `clear()`, and one of these is
  | .notifyOne k target => match s.pc k with
    | .notify n => match target with
      | some j => if s.waiting.any fun p => p.1 = j ∧ p.2 < n then
          some { s.unblock j with pc := update (s.unblock j).pc k .idle }
        else none
      | none => if s.waiting.all fun p => n ≤ p.2 then
          some { s with pc := update s.pc k .idle }
        else none
    | _ => none

def system (κ : Type u) [DecidableEq κ] : System (State κ) (Act κ) where
  init := {}
  step := step

end Coio.Atomutex
