import Coio.Lib.Machine
import Mathlib.Logic.Function.Basic

namespace Coio.Generator
open Function (update)
set_option autoImplicit true

/-- The body of a generator. `elements_of` yields the elements of a fresh nested generator, and
`catches` what that one throws, or not. -/
inductive Body (α : Type u) (ε : Type v)
  | co_return
  | co_yield (value : α) (rest : Body α ε)
  | elements_of (nested : Body α ε) (catches : Bool) (rest : Body α ε)
  | throw (e : ε)
  deriving DecidableEq, Repr

/-- The generator that `elements_of` makes of a range. -/
def Body.to_generator_ : List α → Body α ε
  | [] => .co_return
  | a :: as => .co_yield a (to_generator_ as)

/-- Where a coroutine is suspended; `awaiting` is in the `co_yield` of the nested `new_top_`. -/
inductive Frame (α : Type u) (ε : Type v)
  | suspended (rest : Body α ε)
  | awaiting (new_top_ : Nat) (catches : Bool) (rest : Body α ε)
  | done
  deriving DecidableEq, Repr

/-- A coroutine and its promise. `value_or_error_` is `none` while it holds the `std::monostate`. -/
structure Node (α : Type u) (ε : Type v) where
  frame : Frame α ε := .done
  prev_ : Option Nat := none
  top_ : Option Nat := none
  value_or_error_ : Option (Except ε α) := none

/-- What runs next. `set_top` is the loop `for (; h; --h) h.top() = top;` and the transfer to `top`
that follows it, and `consumer` the code after `resume()` has returned. -/
inductive Control (α : Type u) (ε : Type v)
  | begin
  | resume (k : Nat)
  | run (k : Nat) (body : Body α ε)
  | set_top (h : Option Nat) (top : Nat)
  | unhandled_exception (k : Nat) (e : ε)
  | final_suspend (k : Nat)
  | consumer
  | ended (e : Option ε)
  | undefined
  deriving DecidableEq, Repr

/-- The root is `0`, and `next` the next node to be made. -/
structure State (α : Type u) (ε : Type v) where
  nodes : Nat → Node α ε
  next : Nat := 1
  control : Control α ε := .begin
  yielded : List α := []

def initial (body : Body α ε) : State α ε where
  nodes := update (fun _ => {}) 0 { frame := .suspended body }

def State.set (s : State α ε) (k : Nat) (node : Node α ε) (control : Control α ε) : State α ε :=
  { s with nodes := update s.nodes k node, control := control }

theorem State.set_self (s : State α ε) : (s.set k node c).nodes k = node := by
  unfold State.set
  exact Function.update_self ..

theorem State.set_of_ne (s : State α ε) (h : j ≠ k) : (s.set k node c).nodes j = s.nodes j := by
  unfold State.set
  exact Function.update_of_ne h ..

def begin (s : State α ε) : State α ε :=
  s.set 0 { s.nodes 0 with top_ := some 0 } (.resume 0)

/-- The body goes on, after `await_resume()` where it awaits. -/
def resume (s : State α ε) (k : Nat) : State α ε :=
  match (s.nodes k).frame with
  | .suspended rest => { s with control := .run k rest }
  | .awaiting new_top_ catches rest =>
    -- `new_top_.try_rethrow()`
    match (s.nodes new_top_).value_or_error_ with
    | some (.error e) =>
      if catches then { s with control := .run k rest }
      else { s with control := .unhandled_exception k e }
    | _ => { s with control := .run k rest }
  | .done => { s with control := .undefined }

/-- `yield_value` of a generator, and `await_suspend` of the awaiter. -/
def elements_of (s : State α ε) (k : Nat) (nested : Body α ε) (catches : Bool) (rest : Body α ε) :
    State α ε :=
  let new_top_ := s.next
  let s := s.set k { s.nodes k with frame := .awaiting new_top_ catches rest } s.control
  { s.set new_top_ { frame := .suspended nested, prev_ := some k, top_ := some new_top_ }
      (.set_top (some k) new_top_) with
    next := s.next + 1 }

def run (s : State α ε) (k : Nat) : Body α ε → State α ε
  | .co_return => { s with control := .final_suspend k }
  | .co_yield value rest =>
    s.set k { s.nodes k with frame := .suspended rest, value_or_error_ := some (.ok value) }
      .consumer
  | .elements_of nested catches rest => elements_of s k nested catches rest
  | .throw e => { s with control := .unhandled_exception k e }

def set_top (s : State α ε) (h : Option Nat) (top : Nat) : State α ε :=
  match h with
  | none => { s with control := .resume top }
  | some h => s.set h { s.nodes h with top_ := some top } (.set_top (s.nodes h).prev_ top)

def unhandled_exception (s : State α ε) (k : Nat) (e : ε) : State α ε :=
  match (s.nodes k).top_ with
  | none => { s with control := .undefined }
  | some top =>
    match (s.nodes top).prev_ with
    -- the exception leaves `resume()`, and so `begin()` or `operator++`
    | none => s.set k { s.nodes k with frame := .done } (.ended (some e))
    | some _ => s.set k { s.nodes k with value_or_error_ := some (.error e) } (.final_suspend k)

def final_suspend (s : State α ε) (k : Nat) : State α ε :=
  s.set k { s.nodes k with frame := .done } <|
    match (s.nodes k).prev_ with
    | some prev_ => .set_top (some prev_) prev_
    | none => .consumer

/-- The loop over the elements: it compares with `end()`, reads `*it` and calls `operator++`. -/
def consumer (s : State α ε) : State α ε :=
  match (s.nodes 0).frame with
  | .done => { s with control := .ended none }
  | _ =>
    match (s.nodes 0).top_ with
    | none => { s with control := .undefined }
    | some top =>
      match (s.nodes top).value_or_error_ with
      | some (.ok value) => { s with yielded := s.yielded ++ [value], control := .resume top }
      | _ => { s with control := .undefined }

def step (s : State α ε) : State α ε :=
  match s.control with
  | .begin => begin s
  | .resume k => resume s k
  | .run k body => run s k body
  | .set_top h top => set_top s h top
  | .unhandled_exception k e => unhandled_exception s k e
  | .final_suspend k => final_suspend s k
  | .consumer => consumer s
  | .ended _ | .undefined => s

end Coio.Generator
