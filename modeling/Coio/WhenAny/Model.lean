import Coio.Lib.Transition

namespace Coio.WhenAny
open Transition
open Function (update)
set_option autoImplicit true

/-- How a child completes, and the composite operation. -/
inductive Completion (α : Type u) (ε : Type v)
  | value (a : α)
  | error (e : ε)
  | stopped
  deriving DecidableEq, Repr

/-- Where a child is: not started, running, or in the next step of its receiver. A child is in
`request_stop` while the stop callbacks run. -/
inductive Pc (α : Type u) (ε : Type v)
  | unstarted
  | running
  | report (c : Completion α ε)
  | request_stop (c : Completion α ε)
  | stopping (c : Completion α ε)
  | emplace (c : Completion α ε)
  | arrive
  | finish
  | done
  deriving DecidableEq, Repr

/-- A `when_any` of `total` children; `next` is the next one that `start()` starts, and `result` is
`stopped` while it holds the `std::monostate`. The fields from `completions` on record the
completions of the outer receiver, the reports, the stop requests and the arrivals, in order. -/
structure State (α : Type u) (ε : Type v) (total : Nat) where
  next : Nat := 0
  pc : Fin total → Pc α ε := fun _ => .unstarted
  done_count : Nat := 0
  ready_count : Nat := 0
  stop_requested : Bool := false
  result : Completion α ε := .stopped
  completions : List (Completion α ε) := []
  reports : List (Fin total × Completion α ε) := []
  stops : List (Fin total) := []
  arrivals : List (Fin total) := []

inductive Act (α : Type u) (ε : Type v) (total : Nat)
  | start
  | complete (i : Fin total) (c : Completion α ε)
  | report (i : Fin total) (c : Completion α ε)
  | request_stop (i : Fin total) (c : Completion α ε)
  | stop_returns (i : Fin total) (c : Completion α ε)
  | emplace (i : Fin total) (c : Completion α ε)
  | arrive (i : Fin total)
  | finish (i : Fin total)
  deriving DecidableEq, Repr

def State.goto (s : State α ε total) (i : Fin total) (pc : Pc α ε) : State α ε total :=
  { s with pc := update s.pc i pc }

/-- What the receiver of a child does after `report()` has returned true. -/
def Completion.won : Completion α ε → Pc α ε
  | .stopped => .arrive
  | c => .emplace c

variable [DecidableEq α] [DecidableEq ε]

/-- The children complete at any time after they are started, so also inside their `start()` and
inside the stop request of another child. -/
def step (s : State α ε total) : Act α ε total → Option (State α ε total)
  | .start => if h : s.next < total then
      some { s.goto ⟨s.next, h⟩ .running with next := s.next + 1 }
    else none
  | .complete i c => if s.pc i = .running then some (s.goto i (.report c)) else none
  -- `done_count++ == 0`
  | .report i c => if s.pc i = .report c then
      some { s.goto i (if s.done_count = 0 then .request_stop c else .arrive) with
        done_count := s.done_count + 1, reports := s.reports ++ [(i, c)] }
    else none
  | .request_stop i c => if s.pc i = .request_stop c then
      some { s.goto i (.stopping c) with stop_requested := true, stops := s.stops ++ [i] }
    else none
  | .stop_returns i c => if s.pc i = .stopping c then some (s.goto i c.won) else none
  | .emplace i c => if s.pc i = .emplace c then
      some { s.goto i .arrive with result := c }
    else none
  -- `++ready_count == total`
  | .arrive i => if s.pc i = .arrive then
      some { s.goto i (if s.ready_count + 1 = total then .finish else .done) with
        ready_count := s.ready_count + 1, arrivals := s.arrivals ++ [i] }
    else none
  | .finish i => if s.pc i = .finish then
      some { s.goto i .done with completions := s.completions ++ [s.result] }
    else none

def system (α : Type u) (ε : Type v) [DecidableEq α] [DecidableEq ε] (total : Nat) :
    System (State α ε total) (Act α ε total) where
  init := {}
  step := step

end Coio.WhenAny
