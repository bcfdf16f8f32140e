import Coio.Lib.Align
import Coio.Lib.Word

namespace Coio.CoMemory
set_option autoImplicit true

/-- What the layout depends on of the implementation: `__STDCPP_DEFAULT_NEW_ALIGNMENT__`, a power of
two that is also the size of `default_align_t`, and `sizeof(dealloc_fn_t)`. -/
structure Platform where
  default_new_alignment : Nat
  sizeof_dealloc_fn : Nat
  power : ∃ k, default_new_alignment = 2 ^ k
  fn_pos : 0 < sizeof_dealloc_fn

/-- The allocator type, rebound to `default_align_t`. It is `stateless` when it is
default-initializable and always equal. -/
structure AllocType where
  sizeof : Nat
  alignof : Nat
  stateless : Bool
  power : ∃ k, alignof = 2 ^ k
  dvd : alignof ∣ sizeof
  pos : 0 < sizeof

def ceiling_division (n m : Nat) : Nat := Word.sub (Word.add n m) 1 / m

def ceiling_align (n m : Nat) : Nat := ceiling_division n m * m % Word.modulus

def align_address (ptr alignment least_offset : Nat) : Nat :=
  ceiling_align (Word.add ptr least_offset) alignment

/-- How many blocks a call allocates or deallocates, and where it finds the allocator and the
deallocating function. -/
structure Layout where
  blocks : Nat
  alloc_ptr : Option Nat := none
  fn_ptr : Option Nat := none
  deriving DecidableEq, Repr

variable (P : Platform) (T : AllocType)

def max_alignment : Nat := max T.alignof P.default_new_alignment

namespace Typed

/-- `co_memory<Alloc>::allocate`, when the allocator's result is `ptr`. -/
def allocate (n ptr : Nat) : Layout :=
  if T.stateless then { blocks := ceiling_division n P.default_new_alignment }
  else
    { blocks :=
        Word.sub (Word.add (Word.add n T.sizeof) (max_alignment P T)) 1 / P.default_new_alignment
      alloc_ptr := some (align_address ptr T.alignof n) }

def deallocate (ptr n : Nat) : Layout :=
  if T.stateless then { blocks := ceiling_division n P.default_new_alignment }
  else
    { alloc_ptr := some (align_address ptr T.alignof n)
      blocks :=
        Word.sub (Word.add (Word.add n T.sizeof) (max_alignment P T)) 1 / P.default_new_alignment }

end Typed

namespace Erased

/-- `co_memory<void>::allocate`. -/
def allocate (n ptr : Nat) : Layout :=
  let offset_of_dealloc_fn := n
  let n := Word.add n P.sizeof_dealloc_fn
  if T.stateless then
    { blocks := ceiling_division n P.default_new_alignment
      fn_ptr := some (Word.add ptr offset_of_dealloc_fn) }
  else
    { blocks :=
        Word.sub (Word.add (Word.add n T.sizeof) (max_alignment P T)) 1 / P.default_new_alignment
      fn_ptr := some (Word.add ptr offset_of_dealloc_fn)
      alloc_ptr := some (align_address ptr T.alignof n) }

/-- The function that `allocate` stores for its type of allocator. -/
def dealloc_fn (ptr co_state_size : Nat) : Layout :=
  let length := Word.add co_state_size P.sizeof_dealloc_fn
  if T.stateless then { blocks := ceiling_division length P.default_new_alignment }
  else
    { alloc_ptr := some (align_address ptr T.alignof length)
      blocks :=
        Word.sub (Word.add (Word.add length T.sizeof) (max_alignment P T)) 1 /
          P.default_new_alignment }

/-- The function that is called is the one found in memory; `stored` says of which type's it is. -/
def deallocate (stored : Nat → Option AllocType) (ptr n : Nat) : Option Layout :=
  (stored (Word.add ptr n)).map fun T =>
    { dealloc_fn P T ptr n with fn_ptr := some (Word.add ptr n) }

end Erased

end Coio.CoMemory
