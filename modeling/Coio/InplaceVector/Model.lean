import Coio.Lib.Word
import Mathlib.Logic.Function.Basic

namespace Coio.InplaceVector
open Function (update)
set_option autoImplicit true

/-- `element` stands for whatever the constructor or the assignment of an element throws. -/
inductive Exception
  | bad_alloc
  | element
  deriving DecidableEq, Repr

/-- The template argument `N`: it is not zero, and an array can have this length. -/
structure Capacity where
  N : Nat
  pos : 0 < N
  lt : N < 2 ^ 63

/-- `slots i` is the object that is alive in `storages_[i]`. -/
structure Vec (α : Type u) where
  slots : Nat → Option α := fun _ => none
  cur_size_ : Nat := 0

/-- A call on a vector returns or throws and leaves the vector behind; `none` stands for undefined
behaviour. -/
def Call (α : Type u) (β : Type v) := Vec α → Option (Except Exception β × Vec α)

instance : Monad (Call α) where
  pure x := fun v => some (.ok x, v)
  bind m f := fun v => (m v).bind fun (r, w) =>
    match r with
    | .ok x => f x w
    | .error e => some (.error e, w)

def throw (e : Exception) : Call α β := fun v => some (.error e, v)

def size : Call α Nat := fun v => some (.ok v.cur_size_, v)

def setSize (n : Nat) : Call α Unit := fun v => some (.ok (), { v with cur_size_ := n })

def load (i : Nat) : Call α α := fun v => (v.slots i).map fun x => (.ok x, v)

def construct_at (C : Capacity) (i : Nat) (x : α) : Call α Unit := fun v =>
  if i < C.N ∧ v.slots i = none then
    some (.ok (), { v with slots := update v.slots i (some x) })
  else none

def destroy_at (i : Nat) : Call α Unit := fun v =>
  (v.slots i).map fun _ => (.ok (), { v with slots := update v.slots i none })

/-- `(*this)[i] = x`. -/
def assign_at (i : Nat) (x : α) : Call α Unit := fun v =>
  (v.slots i).map fun _ => (.ok (), { v with slots := update v.slots i (some x) })

/-- What a reference to a value refers to, which may be an element of the vector. -/
inductive Arg (α : Type u)
  | value (x : α)
  | element (i : Nat)

def Arg.read : Arg α → Call α α
  | value x => pure x
  | element i => load i

/-- A new element, whose constructor may throw. -/
structure New (α : Type u) where
  arg : Arg α
  throws : Bool := false

/-- A range of new elements. When it is sized, or its iterators are of random access, its length is
known beforehand and is a value of the difference type. -/
structure Range (α : Type u) where
  elems : List (New α)
  sized : Bool
  lt : sized = true → elems.length < 2 ^ 63

/-- `*rbegin()`; the result is the position of the element. -/
def back : Call α Nat := fun v => if v.cur_size_ = 0 then none else some (.ok (v.cur_size_ - 1), v)

/-- `while (n-- > cur_size_) std::destroy_at(std::addressof(storages_[n]));` in `k` turns. -/
def unwind : Nat → Nat → Call α Unit
  | 0, _ => pure ()
  | k + 1, n => do
    destroy_at (n - 1)
    unwind k (n - 1)

/-- The end of the `try` block, where the loop has stopped at `n`, and the `catch` block. -/
def finish : Nat × Option Exception → Call α Unit
  | (n, none) => setSize n
  | (n, some e) => do
    let cur_size_ ← size
    unwind (n - cur_size_) n
    throw e

/-- The loop of `try_emplace_back_n_` from `n` on in `k` turns. `throws` tells the slots where the
constructor throws. -/
def emplaceLoop (C : Capacity) (args : Arg α) (throws : Nat → Bool) :
    Nat → Nat → Call α (Nat × Option Exception)
  | 0, n => pure (n, none)
  | k + 1, n =>
    if throws n then pure (n, some .element)
    else do
      construct_at C n (← args.read)
      emplaceLoop C args throws k (n + 1)

def try_emplace_back_n_ (C : Capacity) (count : Nat) (args : Arg α) (throws : Nat → Bool) :
    Call α (Option Nat) := do
  let cur_size_ ← size
  let last := Word.add cur_size_ count
  if C.N < last then return none
  else
    finish (← emplaceLoop C args throws (last - cur_size_) cur_size_)
    return some (← back)

/-- `std::ranges::reverse(begin() + first, begin() + last)`. -/
def reverse (first last : Nat) : Call α Unit := fun v =>
  if first ≤ last ∧ ∀ i < last, first ≤ i → v.slots i ≠ none then
    some (.ok (), { v with
      slots := fun i =>
        if first ≤ i ∧ i < last then v.slots (first + last - 1 - i) else v.slots i })
  else none

def shift_right_ (start n : Nat) : Call α Unit := do
  let cur_size_ ← size
  if n = 0 ∨ cur_size_ ≤ Word.add start n then return ()
  else
    let n := Word.sub (Word.sub cur_size_ start) n
    reverse start (start + n)
    reverse (start + n) cur_size_
    reverse start cur_size_

def emplace_back (C : Capacity) (args : Arg α) (throws : Nat → Bool) : Call α Nat := do
  match ← try_emplace_back_n_ C 1 args throws with
  | none => throw .bad_alloc
  | some _ => back

def push_back (C : Capacity) (value : Arg α) (throws : Nat → Bool) : Call α Nat :=
  emplace_back C value throws

/-- The loops of `append_range` and of `insert` with iterators, from `n` on. -/
def appendLoop (C : Capacity) : List (New α) → Nat → Call α (Nat × Option Exception)
  | [], n => pure (n, none)
  | elem :: rest, n =>
    if n = C.N then pure (n, some .bad_alloc)
    else if elem.throws then pure (n, some .element)
    else do
      construct_at C n (← elem.arg.read)
      appendLoop C rest (n + 1)

def append_range (C : Capacity) (r : Range α) : Call α Unit := do
  let cur_size_ ← size
  if r.sized ∧ C.N < Word.add r.elems.length cur_size_ then throw .bad_alloc
  else finish (← appendLoop C r.elems cur_size_)

def emplace (C : Capacity) (pos : Nat) (args : Arg α) (throws : Nat → Bool) : Call α Nat := do
  let _ ← emplace_back C args throws
  shift_right_ pos 1
  return pos

/-- `insert(pos, count, value)`. -/
def insert_count (C : Capacity) (pos count : Nat) (value : Arg α) (throws : Nat → Bool) :
    Call α Nat := do
  match ← try_emplace_back_n_ C count value throws with
  | none => throw .bad_alloc
  | some _ =>
    shift_right_ pos count
    return pos

/-- `insert(pos, value)`. -/
def insert_value (C : Capacity) (pos : Nat) (value : Arg α) (throws : Nat → Bool) : Call α Nat :=
  insert_count C pos 1 value throws

/-- `insert(pos, first, last)`. -/
def insert_iterators (C : Capacity) (pos : Nat) (r : Range α) : Call α Nat := do
  let old_size ← size
  if r.sized ∧ C.N < Word.add r.elems.length old_size then throw .bad_alloc
  else
    finish (← appendLoop C r.elems old_size)
    shift_right_ pos (Word.sub (← size) old_size)
    return pos

def insert_range (C : Capacity) (pos : Nat) (r : Range α) : Call α Nat := do
  let old_size ← size
  append_range C r
  shift_right_ pos (Word.sub (← size) old_size)
  return pos

/-- `std::ranges::move(first, …, result)` of `k` elements, which the constant iterators of `erase`
make a copy. -/
def move : Nat → Nat → Nat → Call α Unit
  | 0, _, _ => pure ()
  | k + 1, first, result => do
    assign_at result (← load first)
    move k (first + 1) (result + 1)

/-- `std::ranges::destroy` of `k` elements. -/
def destroy : Nat → Nat → Call α Unit
  | 0, _ => pure ()
  | k + 1, first => do
    destroy_at first
    destroy k (first + 1)

/-- `erase(first, last)`. -/
def erase_range (first last : Nat) : Call α Nat := do
  let cur_size_ ← size
  if first ≠ last then
    move (cur_size_ - last) last first
    let first_destroyed := first + (cur_size_ - last)
    destroy (cur_size_ - first_destroyed) first_destroyed
    setSize (Word.sub cur_size_ (last - first))
  return first

/-- `erase(pos)`. -/
def erase_at (pos : Nat) : Call α Nat := erase_range pos (pos + 1)

/-- `resize(count)`; `init` is a default element. -/
def resize (C : Capacity) (count : Nat) (init : α) (throws : Nat → Bool) : Call α Unit := do
  if C.N < count then throw .bad_alloc
  else
    let cur_size_ ← size
    if cur_size_ ≤ count then
      match ← try_emplace_back_n_ C (Word.sub count cur_size_) (.value init) throws with
      | none => throw .bad_alloc
      | some _ => return ()
    else
      let _ ← erase_range count cur_size_
      return ()

/-- `resize(count, value)`. -/
def resize_value (C : Capacity) (count : Nat) (value : Arg α) (throws : Nat → Bool) :
    Call α Unit := do
  if C.N < count then throw .bad_alloc
  else
    let cur_size_ ← size
    if cur_size_ ≤ count then
      match ← try_emplace_back_n_ C (Word.sub count cur_size_) value throws with
      | none => throw .bad_alloc
      | some _ => return ()
    else destroy (cur_size_ - count) count

/-- The loop of `assign(count, value)` from `i` on. -/
def assignLoop (C : Capacity) (value : Arg α) (throws : Nat → Bool) (old_size : Nat) :
    Nat → Nat → Call α Unit
  | 0, _ => pure ()
  | count + 1, i =>
    if i < old_size then
      if throws i then throw .element
      else do
        assign_at i (← value.read)
        assignLoop C value throws old_size count (i + 1)
    else do
      let _ ← push_back C value throws
      assignLoop C value throws old_size count (i + 1)

/-- `assign(count, value)`. -/
def assign_count (C : Capacity) (count : Nat) (value : Arg α) (throws : Nat → Bool) :
    Call α Unit := do
  let old_size ← size
  assignLoop C value throws old_size count 0

/-- The loop of the other `assign` functions from `i` on. -/
def assignElems (C : Capacity) (old_size : Nat) : List (New α) → Nat → Call α Nat
  | [], i => pure i
  | elem :: rest, i =>
    if i < old_size then
      if elem.throws then throw .element
      else do
        assign_at i (← elem.arg.read)
        assignElems C old_size rest (i + 1)
    else do
      let _ ← emplace_back C elem.arg fun _ => elem.throws
      assignElems C old_size rest (i + 1)

def assign_range (C : Capacity) (r : Range α) : Call α Unit := do
  if r.sized ∧ C.N < r.elems.length then throw .bad_alloc
  else
    let old_size ← size
    let i ← assignElems C old_size r.elems 0
    if i < old_size then
      let _ ← erase_range i (← size)
      return ()
    else return ()

/-- `assign(first, last)`, whose statements are those of `assign_range`. -/
def assign_iterators (C : Capacity) (r : Range α) : Call α Unit := assign_range C r

/-- The first loop of `swap`, from `i` on in `k` turns. -/
def swapLoop : Nat → Nat → Vec α → Vec α → Option (Vec α × Vec α)
  | 0, _, v, w => some (v, w)
  | k + 1, i, v, w =>
    (v.slots i).bind fun x => (w.slots i).bind fun y =>
      swapLoop k (i + 1) { v with slots := update v.slots i (some y) }
        { w with slots := update w.slots i (some x) }

/-- The `k` elements from `i` on are read through move iterators. `moved` is what the move of an
element leaves behind. -/
def moveOut (moved : α → α) : Nat → Nat → Call α (List (New α))
  | 0, _ => pure []
  | k + 1, i => do
    let x ← load i
    assign_at i (moved x)
    return ⟨.value x, false⟩ :: (← moveOut moved k (i + 1))

/-- The elements of `v` from `i` on are appended to `w` and erased. No array is too long for the
difference type. -/
def appendRest (C : Capacity) (moved : α → α) (i : Nat) (v w : Vec α) :
    Option (Except Exception Unit × Vec α × Vec α) :=
  (moveOut moved (v.cur_size_ - i) i v).bind fun (r, v) =>
    match r with
    | .error e => some (.error e, v, w)
    | .ok elems =>
      if h : elems.length < 2 ^ 63 then
        (append_range C ⟨elems, true, fun _ => h⟩ w).bind fun (r, w) =>
          match r with
          | .error e => some (.error e, v, w)
          | .ok _ => (erase_range i v.cur_size_ v).map fun (r, v) => (r.map fun _ => (), v, w)
      else none

/-- `swap` of two different vectors. -/
def swap (C : Capacity) (moved : α → α) (v w : Vec α) :
    Option (Except Exception Unit × Vec α × Vec α) :=
  let i := min v.cur_size_ w.cur_size_
  (swapLoop i 0 v w).bind fun (v, w) =>
    if i < v.cur_size_ then appendRest C moved i v w
    else if i < w.cur_size_ then
      (appendRest C moved i w v).map fun (r, w, v) => (r, v, w)
    else some (.ok (), v, w)

/-- `std::ranges::find_if` from `i` on over `k` elements. -/
def find_if (pred : α → Call α Bool) : Nat → Nat → Call α Nat
  | 0, i => pure i
  | k + 1, i => do
    if ← pred (← load i) then return i
    else find_if pred k (i + 1)

/-- The loop of `std::ranges::remove_if` from `i` on over `k` elements, after the first match. -/
def removeLoop (moved : α → α) (pred : α → Call α Bool) : Nat → Nat → Nat → Call α Nat
  | 0, _, first => pure first
  | k + 1, i, first => do
    let x ← load i
    if ← pred x then removeLoop moved pred k (i + 1) first
    else do
      assign_at i (moved x)
      assign_at first x
      removeLoop moved pred k (i + 1) (first + 1)

/-- `std::ranges::remove_if`, with which `std::ranges::remove` shares its loops; the result is where
the rest begins. -/
def remove_if (moved : α → α) (pred : α → Call α Bool) : Call α Nat := do
  let cur_size_ ← size
  let first ← find_if pred cur_size_ 0
  removeLoop moved pred (cur_size_ - (first + 1)) (first + 1) first

/-- The call of the member `erase` after `remove` or `remove_if`. -/
def eraseRest (first : Nat) : Call α Nat := do
  let last ← size
  let _ ← erase_range first last
  return last - first

/-- `erase(c, value)`. -/
def erase [DecidableEq α] (moved : α → α) (value : Arg α) : Call α Nat := do
  eraseRest (← remove_if moved fun x => do return decide (x = (← value.read)))

def erase_if (moved : α → α) (pred : α → Bool) : Call α Nat := do
  eraseRest (← remove_if moved fun x => pure (pred x))

end Coio.InplaceVector
