import Coio.Lib.Transition

namespace Coio.RetainPtr
open Transition
open Function (update)
set_option autoImplicit true

/-- A `retain_ptr` object: one of the program's own or the temporary of an assignment. -/
inductive Object (ι : Type u)
  | own (i : ι)
  | temporary
  deriving DecidableEq, Repr

/-- The objects that exist with their `ptr_`, which is null or one of the pointees `κ`, and the
pointees with their `ref_count_`. The last field records the calls of `do_lose`. -/
structure State (ι : Type u) (κ : Type v) where
  ptr_ : Object ι → Option (Option κ) := fun _ => none
  ref_count_ : κ → Nat := fun _ => 0
  lost : List κ := []

def State.Holds (s : State ι κ) (i : ι) (k : κ) : Prop := s.ptr_ (.own i) = some (some k)

variable [DecidableEq ι] [DecidableEq κ]

namespace State

def retain (s : State ι κ) (k : κ) : State ι κ :=
  { s with ref_count_ := update s.ref_count_ k (s.ref_count_ k + 1) }

def lose (s : State ι κ) (k : κ) : State ι κ :=
  { s with
    ref_count_ := update s.ref_count_ k (s.ref_count_ k - 1)
    lost := if s.ref_count_ k = 1 then s.lost ++ [k] else s.lost }

def store (s : State ι κ) (o : Object ι) (p : Option (Option κ)) : State ι κ :=
  { s with ptr_ := update s.ptr_ o p }

/-- `retain_ptr(ptr)`, which is also the default constructor and that from `nullptr`. -/
def construct (s : State ι κ) (o : Object ι) (ptr : Option κ) : Option (State ι κ) :=
  if s.ptr_ o = none then
    match ptr with
    | none => some (s.store o (some none))
    | some k => some ((s.store o (some (some k))).retain k)
  else none

def copy_construct (s : State ι κ) (o other : Object ι) : Option (State ι κ) :=
  (s.ptr_ other).bind fun ptr => s.construct o ptr

def move_construct (s : State ι κ) (o other : Object ι) : Option (State ι κ) :=
  (s.ptr_ other).bind fun ptr =>
    if s.ptr_ o = none then some ((s.store other (some none)).store o (some ptr)) else none

/-- `~retain_ptr()` -/
def destruct (s : State ι κ) (o : Object ι) : Option (State ι κ) :=
  match s.ptr_ o with
  | none => none
  | some none => some (s.store o none)
  | some (some k) => some ((s.lose k).store o none)

def swap (s : State ι κ) (o other : Object ι) : Option (State ι κ) :=
  (s.ptr_ o).bind fun ptr => (s.ptr_ other).bind fun otherPtr =>
    some ((s.store o (some otherPtr)).store other (some ptr))

/-- `.swap(*this)` of the temporary, which is destroyed after it. -/
def assign_temporary (s : State ι κ) (i : ι) : Option (State ι κ) :=
  (s.swap .temporary (.own i)).bind fun s => s.destruct .temporary

/-- `retain_ptr(other).swap(*this)` -/
def copy_assign (s : State ι κ) (i other : ι) : Option (State ι κ) :=
  (s.copy_construct .temporary (.own other)).bind fun s => s.assign_temporary i

/-- `retain_ptr(std::move(other)).swap(*this)` -/
def move_assign (s : State ι κ) (i other : ι) : Option (State ι κ) :=
  (s.move_construct .temporary (.own other)).bind fun s => s.assign_temporary i

/-- `retain_ptr(new_ptr).swap(*this)`, and without an argument `retain_ptr{}.swap(*this)`. -/
def reset (s : State ι κ) (i : ι) (new_ptr : Option κ) : Option (State ι κ) :=
  (s.construct .temporary new_ptr).bind fun s => s.assign_temporary i

end State

inductive Act (ι : Type u) (κ : Type v)
  | construct (i : ι) (ptr : Option κ)
  | copyConstruct (i other : ι)
  | moveConstruct (i other : ι)
  | copyAssign (i other : ι)
  | moveAssign (i other : ι)
  | reset (i : ι) (new_ptr : Option κ)
  | swap (i other : ι)
  | destruct (i : ι)
  deriving DecidableEq, Repr

/-- A pointer that the program passes in is null or its pointee has not been lost. -/
def step (s : State ι κ) : Act ι κ → Option (State ι κ)
  | .construct i ptr =>
    if ∀ k ∈ ptr, k ∉ s.lost then s.construct (.own i) ptr else none
  | .copyConstruct i other => s.copy_construct (.own i) (.own other)
  | .moveConstruct i other => s.move_construct (.own i) (.own other)
  | .copyAssign i other => s.copy_assign i other
  | .moveAssign i other => s.move_assign i other
  | .reset i new_ptr =>
    if ∀ k ∈ new_ptr, k ∉ s.lost then s.reset i new_ptr else none
  | .swap i other => s.swap (.own i) (.own other)
  | .destruct i => s.destruct (.own i)

/-- The program's objects are constructed, used and destroyed in any order. -/
def system (ι : Type u) (κ : Type v) [DecidableEq ι] [DecidableEq κ] :
    System (State ι κ) (Act ι κ) where
  init := {}
  step := step

end Coio.RetainPtr
