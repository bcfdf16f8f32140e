import Coio.Lib.Heap
import Coio.Lib.Word
import Mathlib.Algebra.Group.Int.Defs

namespace Coio.Streambuf
set_option autoImplicit true

inductive Exception
  | length_error
  | bad_alloc
  deriving DecidableEq, Repr

/-- A `basic_streambuf`: the pointers are offsets from `&buffer_[0]`, where `eback()` always is. -/
structure Buffer where
  max_size_ : Nat
  buffer_ : List UInt8
  gptr : Nat := 0
  egptr : Nat := 0
  pptr : Nat := 0
  epptr : Nat := 0
  deriving DecidableEq, Repr

/-- What a call leaves behind, and the character that it reads. -/
structure Result where
  buf : Buffer
  thrown : Option Exception := none
  read : Option UInt8 := none
  deriving DecidableEq, Repr

def buffer_delta : Nat := 128

def construct (max_size : Nat) : Buffer :=
  let pend := min max_size buffer_delta
  { max_size_ := max_size, buffer_ := List.replicate (max pend 1) 0, epptr := pend }

def Buffer.size (s : Buffer) : Nat := Word.sub s.pptr s.gptr

def Buffer.data (s : Buffer) : List UInt8 := (s.buffer_.drop s.gptr).take s.size

/-- The conversion of a `std::size_t` to `int`. -/
def int (n : Nat) : Int :=
  if n % 2 ^ 32 < 2 ^ 31 then (n % 2 ^ 32 : Nat) else ((n % 2 ^ 32 : Nat) : Int) - 2 ^ 32

/-- A pointer `p` into `len` bytes moved by `d`; it has to stay there. -/
def bump (len p : Nat) (d : Int) : Option Nat :=
  if 0 ≤ p + d ∧ p + d ≤ len then some (p + d).toNat else none

/-- `std::memmove` of `n` bytes at `src` to the front. -/
def memmove (bytes : List UInt8) (src n : Nat) : Option (List UInt8) :=
  if src + n ≤ bytes.length then some (Heap.splice bytes 0 ((bytes.drop src).take n)) else none

/-- `resize` of the vector. It throws when `n` is more than a vector can hold, or when the allocator
has no `room`. -/
def resize (room : Bool) (n : Nat) (bytes : List UInt8) : Except Exception (List UInt8) :=
  if 2 ^ 63 ≤ n then .error .length_error
  else if room then .ok (bytes.take n ++ List.replicate (n - bytes.length) 0)
  else .error .bad_alloc

def reserve (room : Bool) (n : Nat) (s : Buffer) : Option Result :=
  let gnext := s.gptr
  let pnext := s.pptr
  let pend := s.epptr
  if n ≤ Word.sub pend pnext then some { buf := s }
  else
    (if 0 < gnext then
      (memmove s.buffer_ gnext (Word.sub pnext gnext)).map fun bytes =>
        (bytes, Word.sub pnext gnext)
    else some (s.buffer_, pnext)).map fun (bytes, pnext) =>
      if Word.sub pend pnext < n then
        if n ≤ s.max_size_ ∧ pnext ≤ Word.sub s.max_size_ n then
          let pend := Word.add pnext n
          match resize room (max pend 1) bytes with
          | .error e => { buf := { s with buffer_ := bytes }, thrown := some e }
          | .ok bytes =>
            { buf :=
                { s with
                  buffer_ := bytes, gptr := 0, egptr := pnext, pptr := pnext, epptr := pend } }
        else { buf := { s with buffer_ := bytes }, thrown := some .length_error }
      else
        { buf :=
            { s with buffer_ := bytes, gptr := 0, egptr := pnext, pptr := pnext, epptr := pend } }

def prepare (room : Bool) (n : Nat) (s : Buffer) : Option Result := reserve room n s

/-- Bytes stored behind `pptr()`, from its position `k` on, through the span of `prepare`. -/
def write (k : Nat) (bytes : List UInt8) (s : Buffer) : Option Result :=
  let i := s.pptr + k
  if i + bytes.length ≤ s.buffer_.length then
    some { buf := { s with buffer_ := Heap.splice s.buffer_ i bytes } }
  else none

def commit (n : Nat) (s : Buffer) : Option Result :=
  let n := min n (Word.sub s.epptr s.pptr)
  (bump s.buffer_.length s.pptr (int n)).map fun pptr =>
    { buf := { s with pptr := pptr, egptr := pptr } }

/-- The sum `gptr() + n` is a pointer that must not wrap around. -/
def consume (n : Nat) (s : Buffer) : Option Result :=
  let s := if s.egptr < s.pptr then { s with egptr := s.pptr } else s
  if 2 ^ 63 ≤ n then none
  else
    let n := if s.pptr < s.gptr + n then Word.sub s.pptr s.gptr else n
    (bump s.buffer_.length s.gptr (int n)).map fun gptr => { buf := { s with gptr := gptr } }

def underflow (s : Buffer) : Option Result :=
  if s.gptr < s.pptr then
    (s.buffer_[s.gptr]?).map fun c => { buf := { s with egptr := s.pptr }, read := some c }
  else some { buf := s }

/-- `*pptr() = c; pbump(1);`. -/
def put (c : UInt8) (s : Buffer) : Option Result :=
  if s.pptr < s.buffer_.length then
    some { buf := { s with buffer_ := Heap.splice s.buffer_ s.pptr [c], pptr := s.pptr + 1 } }
  else none

/-- The room that `overflow` asks for. -/
def Buffer.growth (s : Buffer) : Nat :=
  let buffer_size := Word.sub s.pptr s.gptr
  if buffer_size < s.max_size_ ∧ Word.sub s.max_size_ buffer_size < buffer_delta then
    Word.sub s.max_size_ buffer_size
  else buffer_delta

/-- The character `none` is `eof`. -/
def overflow (room : Bool) (c : Option UInt8) (s : Buffer) : Option Result :=
  match c with
  | none => some { buf := s }
  | some c =>
    if s.pptr = s.epptr then
      (reserve room s.growth s).bind fun r =>
        match r.thrown with
        | some _ => some r
        | none => put c r.buf
    else put c s

/-- The function of `std::streambuf` that puts a character. -/
def sputc (room : Bool) (c : UInt8) (s : Buffer) : Option Result :=
  if s.pptr < s.epptr then put c s else overflow room (some c) s

/-- The function of `std::streambuf` that looks at a character. -/
def sgetc (s : Buffer) : Option Result :=
  if s.gptr < s.egptr then (s.buffer_[s.gptr]?).map fun c => { buf := s, read := some c }
  else underflow s

/-- The function of `std::streambuf` that takes a character, by way of `uflow()` when there is none
before `egptr()`. -/
def sbumpc (s : Buffer) : Option Result :=
  (sgetc s).map fun r =>
    match r.read with
    | some _ => { r with buf := { r.buf with gptr := r.buf.gptr + 1 } }
    | none => r

inductive Op
  | prepare (n : Nat) (room : Bool)
  | write (k : Nat) (bytes : List UInt8)
  | commit (n : Nat)
  | consume (n : Nat)
  | sputc (c : UInt8) (room : Bool)
  | sgetc
  | sbumpc

def Op.call : Op → Buffer → Option Result
  | .prepare n room => Streambuf.prepare room n
  | .write k bytes => Streambuf.write k bytes
  | .commit n => Streambuf.commit n
  | .consume n => Streambuf.consume n
  | .sputc c room => Streambuf.sputc room c
  | .sgetc => Streambuf.sgetc
  | .sbumpc => Streambuf.sbumpc

end Coio.Streambuf
