import Coio.Lib.Transition
import Mathlib.Data.Fintype.Defs

namespace Coio.StopCombiner
open Transition
open Function (update)
set_option autoImplicit true

/-- The next step of one of the callbacks `inners_`. Between `exchange` and `returning` it is in
`call_once::operator()`, and in `invoking` it is inside of `fn`. -/
inductive Pc
  | unconstructed
  | registered
  | exchange
  | invoke
  | invoking
  | returning
  | executed
  | removed
  deriving DecidableEq, Repr

/-- The callbacks `inners_` are constructed and destroyed one after another, in any order. The
constructor is perhaps inside of a callback, and the destructor was perhaps called inside of `fn` by
one. -/
inductive Phase (ι : Type u)
  | constructing (inside : Option ι)
  | constructed
  | destroying (within : Option ι)
  | destroyed
  deriving DecidableEq, Repr

/-- The callback of a `stop_combiner` with the tokens `ι`, whose sources are `σ`. A source executes
one callback at a time. `present` are the callbacks that live, and `invocations` counts the calls of
`fn`. -/
structure State (ι : Type u) (σ : Type v) where
  requested : σ → Bool := fun _ => false
  executing : σ → Option ι := fun _ => none
  phase : Phase ι := .constructing none
  pc : ι → Pc := fun _ => .unconstructed
  present : ι → Bool := fun _ => false
  flag : Bool := true
  invocations : Nat := 0

inductive Act (ι : Type u) (σ : Type v)
  | requestStop (c : σ)
  | construct (i : ι)
  | constructed
  | execute (i : ι)
  | exchange (i : ι)
  | invoke (i : ι)
  | fnReturns (i : ι)
  | finish (i : ι)
  | destroy (within : Option ι)
  | deregister (i : ι)
  | destroyed
  deriving DecidableEq, Repr

variable [DecidableEq ι] [DecidableEq σ] [Fintype ι]

def step (source : ι → σ) (s : State ι σ) : Act ι σ → Option (State ι σ)
  | .requestStop c => if s.requested c = false then
      some { s with requested := update s.requested c true }
    else none
  -- the constructor executes the callback itself when the stop is already requested
  | .construct i => if s.phase = .constructing none ∧ s.pc i = .unconstructed then
      if s.requested (source i) then
        some { s with
          phase := .constructing (some i), pc := update s.pc i .exchange
          present := update s.present i true }
      else some { s with pc := update s.pc i .registered, present := update s.present i true }
    else none
  | .constructed => if s.phase = .constructing none ∧ ∀ i, s.pc i ≠ .unconstructed then
      some { s with phase := .constructed }
    else none
  | .execute i => if s.requested (source i) = true ∧ s.executing (source i) = none ∧
      s.pc i = .registered then
      some { s with
        executing := update s.executing (source i) (some i), pc := update s.pc i .exchange }
    else none
  | .exchange i => if s.pc i = .exchange then
      some { s with flag := false, pc := update s.pc i (if s.flag then .invoke else .returning) }
    else none
  | .invoke i => if s.pc i = .invoke then
      some { s with pc := update s.pc i .invoking, invocations := s.invocations + 1 }
    else none
  -- a destructor that was called inside of `fn` has returned before `fn` does
  | .fnReturns i => if s.pc i = .invoking ∧ s.phase ≠ .destroying (some i) then
      some { s with pc := update s.pc i .returning }
    else none
  | .finish i => if s.pc i = .returning then
      some { s with
        executing := if s.executing (source i) = some i then update s.executing (source i) none
          else s.executing
        phase := if s.phase = .constructing (some i) then .constructing none else s.phase
        pc := update s.pc i .executed }
    else none
  | .destroy within => if s.phase = .constructed ∧ ∀ i ∈ within, s.pc i = .invoking then
      some { s with phase := .destroying within }
    else none
  -- the destructor of a callback waits while another thread executes it
  | .deregister i => match s.phase with
    | .destroying within => if s.present i = true ∧
        (s.pc i = .registered ∨ s.pc i = .executed ∨ within = some i) then
        some { s with
          present := update s.present i false
          pc := if s.pc i = .registered then update s.pc i .removed else s.pc }
      else none
    | _ => none
  | .destroyed => match s.phase with
    | .destroying _ => if ∀ i, s.present i = false then
        some { s with phase := .destroyed }
      else none
    | _ => none

def system (source : ι → σ) : System (State ι σ) (Act ι σ) where
  init := {}
  step := step source

/-- `stop_combiner::stop_requested()`. -/
def State.stop_requested (source : ι → σ) (s : State ι σ) : Prop :=
  ∃ i, s.requested (source i) = true

end Coio.StopCombiner
