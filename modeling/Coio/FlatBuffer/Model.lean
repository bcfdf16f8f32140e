import Coio.Lib.Heap
import Coio.Lib.Transition
import Coio.Lib.Word

namespace Coio.FlatBuffer
open Function (update)
set_option autoImplicit true

inductive Exception
  | length_error
  | bad_alloc
  deriving DecidableEq, Repr

/-- A `basic_flat_buffer`; `data_` is the address of its block. -/
structure Buffer (A : Type u) where
  alloc_ : A
  max_ : Nat := Word.modulus - 1
  data_ : Option Nat := none
  in_ : Nat := 0
  out_ : Nat := 0
  last_ : Nat := 0
  end_ : Nat := 0
  deriving DecidableEq, Repr

structure Span where
  data : Option Nat := none
  offset : Nat := 0
  size : Nat := 0
  deriving DecidableEq, Repr

abbrev Memory (A : Type u) := Heap A UInt8

/-- What the allocator does when it is asked for bytes: it gives an address and what is found
there, or it throws. -/
inductive Answer
  | block (p : Nat) (junk : Nat → UInt8)
  | bad_alloc

/-- What a call leaves behind. -/
structure Result (A : Type u) where
  heap : Memory A
  buffer : Buffer A
  thrown : Option Exception := none
  span : Span := {}

def Buffer.size (b : Buffer A) : Nat := Word.sub b.out_ b.in_

/-- `std::memcpy` and `std::memmove` between blocks. -/
def memcpy (h : Memory A) (dst : Option Nat) (doff : Nat) (src : Option Nat) (soff n : Nat) :
    Option (Memory A) :=
  dst.bind fun p => src.bind fun q => h.copy p doff q soff n

/-- A new block of `cap` bytes with the readable bytes of `src` at its front. -/
def copyOut (p : Nat) (junk : Nat → UInt8) (cap : Nat) (a : A) (h : Memory A)
    (src : Buffer A) : Option (Memory A) :=
  let h := h.alloc p a ((List.range cap).map junk)
  if 0 < src.size then memcpy h (some p) 0 src.data_ src.in_ src.size else some h

def reset (b : Buffer A) : Buffer A :=
  { b with data_ := none, in_ := 0, out_ := 0, last_ := 0, end_ := 0 }

def destroy [DecidableEq A] (h : Memory A) (b : Buffer A) : Option (Memory A × Buffer A) :=
  match b.data_ with
  | some p => (h.dealloc b.alloc_ p b.end_).map fun h => (h, reset b)
  | none => some (h, reset b)

/-- The growth loop of `prepare`, that has `fuel` more rounds. -/
def grow (need max_ : Nat) : Nat → Nat → Nat
  | 0, new_cap => new_cap
  | fuel + 1, new_cap =>
    if new_cap < need then
      let next := new_cap * 2 % Word.modulus
      if new_cap < next ∧ next ≤ max_ then grow need max_ fuel next else min need max_
    else new_cap

def prepare [DecidableEq A] (o : Answer) (n : Nat) (h : Memory A) (b : Buffer A) :
    Option (Result A) :=
  if n = 0 then some { heap := h, buffer := b }
  else if b.data_.isSome ∧ n ≤ Word.sub b.end_ b.out_ then
    some {
      heap := h
      buffer := { b with last_ := Word.add b.out_ n }
      span := ⟨b.data_, b.out_, n⟩ }
  else
    let len := b.size
    if b.data_.isSome ∧ n ≤ Word.sub b.end_ len then
      (if 0 < len then memcpy h b.data_ 0 b.data_ b.in_ len else some h).map fun h =>
        { heap := h, buffer := { b with in_ := 0, out_ := len, last_ := Word.add len n },
          span := ⟨b.data_, len, n⟩ }
    else if Word.sub b.max_ len < n then
      some { heap := h, buffer := b, thrown := some .length_error }
    else
      match o with
      | .bad_alloc => some { heap := h, buffer := b, thrown := some .bad_alloc }
      | .block p junk =>
        let new_cap := grow (Word.add len n) b.max_ 64 (max b.end_ 512)
        (copyOut p junk new_cap b.alloc_ h b).bind fun h => (destroy h b).map fun (h, b) =>
          { heap := h,
            buffer :=
              { b with
                  data_ := some p, in_ := 0, out_ := len, last_ := Word.add len n
                  end_ := new_cap },
            span := ⟨some p, len, n⟩ }

def commit (n : Nat) (b : Buffer A) : Buffer A :=
  { b with out_ := Word.add b.out_ (min n (Word.sub b.last_ b.out_)) }

def consume (n : Nat) (b : Buffer A) : Buffer A :=
  { b with in_ := Word.add b.in_ (min n b.size) }

/-- Bytes stored through the span of the latest `prepare`, from its position `k` on. -/
def write (k : Nat) (bytes : List UInt8) (h : Memory A) (b : Buffer A) : Option (Result A) :=
  b.data_.bind fun p => (h.store p (b.out_ + k) bytes).map fun h => { heap := h, buffer := b }

def clear (b : Buffer A) : Buffer A :=
  { b with in_ := 0, out_ := 0, last_ := 0 }

def reserve [DecidableEq A] (o : Answer) (n : Nat) (h : Memory A) (b : Buffer A) :
    Option (Result A) :=
  if b.max_ < n then some { heap := h, buffer := b, thrown := some .length_error }
  else if n ≤ b.end_ then some { heap := h, buffer := b }
  else
    match o with
    | .bad_alloc => some { heap := h, buffer := b, thrown := some .bad_alloc }
    | .block p junk =>
      let len := b.size
      (copyOut p junk n b.alloc_ h b).bind fun h => (destroy h b).map fun (h, b) =>
        { heap := h,
          buffer := { b with data_ := some p, in_ := 0, out_ := len, last_ := len, end_ := n } }

def shrink_to_fit [DecidableEq A] (o : Answer) (h : Memory A) (b : Buffer A) :
    Option (Result A) :=
  let len := b.size
  if len = 0 then (destroy h b).map fun (h, b) => { heap := h, buffer := b }
  else if len = b.end_ ∧ b.in_ = 0 then some { heap := h, buffer := b }
  else if len = b.end_ then
    (memcpy h b.data_ 0 b.data_ b.in_ len).map fun h =>
      { heap := h, buffer := { b with in_ := 0, out_ := len, last_ := len } }
  else
    match o with
    | .bad_alloc => some { heap := h, buffer := b, thrown := some .bad_alloc }
    | .block p junk =>
      (copyOut p junk len b.alloc_ h b).bind fun h => b.data_.bind fun q =>
        (h.dealloc b.alloc_ q b.end_).map fun h =>
          { heap := h,
            buffer := { b with data_ := some p, in_ := 0, out_ := len, last_ := len, end_ := len } }

/-- How an allocator type propagates. -/
structure Traits (A : Type u) where
  select_on_container_copy_construction : A → A := id
  propagate_on_container_copy_assignment : Bool := false
  propagate_on_container_move_assignment : Bool := false
  propagate_on_container_swap : Bool := false

variable (T : Traits A)

def copyConstruct (o : Answer) (h : Memory A) (other : Buffer A) : Option (Result A) :=
  let b : Buffer A :=
    { alloc_ := T.select_on_container_copy_construction other.alloc_, max_ := other.max_ }
  let len := other.size
  if 0 < len then
    match o with
    | .bad_alloc => some { heap := h, buffer := b, thrown := some .bad_alloc }
    | .block p junk =>
      (copyOut p junk len b.alloc_ h other).map fun h =>
        { heap := h, buffer := { b with data_ := some p, out_ := len, last_ := len, end_ := len } }
  else some { heap := h, buffer := b }

/-- The readable bytes of `other` copied into the block of the buffer, or a larger one. -/
def assignBytes [DecidableEq A] (o : Answer) (h : Memory A) (b other : Buffer A) :
    Option (Result A) :=
  let len := other.size
  let fill : Memory A × Buffer A → Option (Result A) := fun (h, b) =>
    (memcpy h b.data_ 0 other.data_ other.in_ len).map fun h =>
      { heap := h, buffer := { b with in_ := 0, out_ := len, last_ := len } }
  if b.end_ < len then
    match o with
    | .bad_alloc => some { heap := h, buffer := b, thrown := some .bad_alloc }
    | .block p junk =>
      (destroy (h.alloc p b.alloc_ ((List.range len).map junk)) b).bind fun (h, b) =>
        fill (h, { b with data_ := some p, end_ := len })
  else fill (h, b)

/-- The assignment from another object. -/
def copyAssign [DecidableEq A] (o : Answer) (h : Memory A) (b other : Buffer A) :
    Option (Result A) :=
  let len := other.size
  if len = 0 then
    if T.propagate_on_container_copy_assignment ∧ b.alloc_ ≠ other.alloc_ then
      (destroy h b).map fun (h, b) =>
        { heap := h, buffer := { clear { b with alloc_ := other.alloc_ } with max_ := other.max_ } }
    else some { heap := h, buffer := { clear b with max_ := other.max_ } }
  else if T.propagate_on_container_copy_assignment ∧ b.alloc_ ≠ other.alloc_ then
    match o with
    | .bad_alloc => some { heap := h, buffer := b, thrown := some .bad_alloc }
    | .block p junk =>
      (copyOut p junk len other.alloc_ h other).bind fun h => (destroy h b).map fun (h, b) =>
        { heap := h,
          buffer :=
            { b with
              alloc_ := other.alloc_, max_ := other.max_, data_ := some p, in_ := 0, out_ := len,
              last_ := len, end_ := len } }
  else
    (assignBytes o h b other).map fun r =>
      if r.thrown = none then { r with buffer := { r.buffer with max_ := other.max_ } } else r

def steal_from (b other : Buffer A) : Buffer A :=
  { b with
    data_ := other.data_, in_ := other.in_, out_ := other.out_, last_ := other.last_,
    end_ := other.end_ }

/-- The assignment from another object that may be moved from, with what is left of that. -/
def moveAssign [DecidableEq A] (o : Answer) (h : Memory A) (b other : Buffer A) :
    Option (Result A × Buffer A) :=
  if T.propagate_on_container_move_assignment then
    (destroy h b).map fun (h, b) =>
      ({ heap := h,
         buffer := { steal_from { b with alloc_ := other.alloc_ } other with max_ := other.max_ } },
       reset other)
  else if b.alloc_ = other.alloc_ then
    (destroy h b).map fun (h, b) =>
      ({ heap := h, buffer := { steal_from b other with max_ := other.max_ } }, reset other)
  else if other.size = 0 then
    some ({ heap := h, buffer := { clear b with max_ := other.max_ } }, clear other)
  else
    (assignBytes o h b other).map fun r =>
      if r.thrown = none then
        ({ r with buffer := { r.buffer with max_ := other.max_ } }, clear other)
      else (r, other)

/-- The buffers of a program, those that exist. -/
structure World (ι : Type u) (A : Type v) where
  heap : Memory A := Heap.empty
  objects : ι → Option (Buffer A) := fun _ => none

inductive Act (ι : Type u) (A : Type v)
  | construct (i : ι) (alloc : A) (max_size : Nat)
  | copyConstruct (i j : ι) (o : Answer)
  | moveConstruct (i j : ι)
  | copyAssign (i j : ι) (o : Answer)
  | moveAssign (i j : ι) (o : Answer)
  | swap (i j : ι)
  | destruct (i : ι)
  | prepare (i : ι) (n : Nat) (o : Answer)
  | write (i : ι) (k : Nat) (bytes : List UInt8)
  | commit (i : ι) (n : Nat)
  | consume (i : ι) (n : Nat)
  | clear (i : ι)
  | reserve (i : ι) (n : Nat) (o : Answer)
  | shrink_to_fit (i : ι) (o : Answer)

/-- What an action leaves behind in the program. -/
structure Outcome (ι : Type u) (A : Type v) where
  world : World ι A
  thrown : Option Exception := none
  span : Span := {}

variable [DecidableEq ι]

def World.put (w : World ι A) (i : ι) (r : Result A) : Outcome ι A :=
  { world := ⟨r.heap, update w.objects i (some r.buffer)⟩, thrown := r.thrown, span := r.span }

/-- A buffer changed in place. -/
def World.modify (w : World ι A) (i : ι) (f : Buffer A → Buffer A) : Option (Outcome ι A) :=
  (w.objects i).map fun b => w.put i { heap := w.heap, buffer := f b }

/-- An operation of one buffer that uses the memory. -/
def World.call (w : World ι A) (i : ι) (f : Memory A → Buffer A → Option (Result A)) :
    Option (Outcome ι A) :=
  (w.objects i).bind fun b => (f w.heap b).map (w.put i)

/-- The exchange of everything but the allocators, which are exchanged when they propagate. -/
def swapped (b other : Buffer A) : Buffer A :=
  if T.propagate_on_container_swap then other else { other with alloc_ := b.alloc_ }

/-- The effect of an action, which is undefined where the memory is misused. -/
def World.exec [DecidableEq A] (w : World ι A) : Act ι A → Option (Outcome ι A)
  | .construct i alloc max_size =>
    some (w.put i { heap := w.heap, buffer := { alloc_ := alloc, max_ := max_size } })
  | .copyConstruct i j o =>
    (w.objects j).bind fun other => (FlatBuffer.copyConstruct T o w.heap other).map fun r =>
      if r.thrown = none then w.put i r else { world := w, thrown := r.thrown }
  | .moveConstruct i j =>
    (w.objects j).map fun other =>
      { world := { w with
          objects := update (update w.objects i (some other)) j (some (reset other)) } }
  | .copyAssign i j o =>
    if i = j then some { world := w }
    else (w.objects j).bind fun other => w.call i fun h b => FlatBuffer.copyAssign T o h b other
  | .moveAssign i j o =>
    if i = j then some { world := w }
    else (w.objects i).bind fun b => (w.objects j).bind fun other =>
      (FlatBuffer.moveAssign T o w.heap b other).map fun (r, other) =>
        { world := ⟨r.heap, update (update w.objects i (some r.buffer)) j (some other)⟩,
          thrown := r.thrown }
  | .swap i j =>
    (w.objects i).bind fun b => (w.objects j).map fun other =>
      let objects := update w.objects i (some (swapped T b other))
      { world := { w with objects := update objects j (some (swapped T other b)) } }
  | .destruct i =>
    (w.objects i).bind fun b => (destroy w.heap b).map fun (h, _) =>
      { world := ⟨h, update w.objects i none⟩ }
  | .prepare i n o => w.call i fun h b => FlatBuffer.prepare o n h b
  | .write i k bytes => w.call i fun h b => FlatBuffer.write k bytes h b
  | .commit i n => w.modify i (FlatBuffer.commit n)
  | .consume i n => w.modify i (FlatBuffer.consume n)
  | .clear i => w.modify i FlatBuffer.clear
  | .reserve i n o => w.call i fun h b => FlatBuffer.reserve o n h b
  | .shrink_to_fit i o => w.call i fun h b => FlatBuffer.shrink_to_fit o h b

end Coio.FlatBuffer
