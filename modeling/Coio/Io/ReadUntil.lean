import Coio.Io.Device

namespace Coio.Io
open DynamicBuffer
set_option autoImplicit true

/-- A delimiter of type `char` or `std::string_view`. -/
inductive Delim
  | char (c : UInt8)
  | string (d : List UInt8)
  deriving DecidableEq, Repr

def Delim.bytes : Delim → List UInt8
  | .char c => [c]
  | .string d => d

/-- The search for a character from the resume position on, with the position after it. -/
def searchChar (c : UInt8) (t : List UInt8) (search_pos : Nat) : Option Nat :=
  ((List.range' search_pos (t.length - search_pos)).find? fun i => t[i]? = some c).map (· + 1)

/-- The search for a string, which backs up for partial matches at the boundary. -/
def searchString (d t : List UInt8) (search_pos : Nat) : Option Nat :=
  let start := if d.length - 1 < search_pos then search_pos - d.length + 1 else 0
  if d.length ≤ t.length then
    (Search.find d t start (t.length - d.length + 1 - start)).map (· + d.length)
  else none

/-- How many bytes a round asks for, in the arithmetic of `std::size_t`. -/
def bytes_to_read [DynamicBuffer β] (b : β) : Nat :=
  min (max 512 (Word.sub (capacity b) (size b))) (min 65536 (Word.sub (max_size b) (size b)))

structure Ended (σ : Type u) (β : Type v) where
  outcome : Outcome
  device : σ
  buffer : β

section Sync

variable [DynamicBuffer β] (dev : InputStreamDevice σ)

/-- The loop of both synchronous forms, that has `fuel` more rounds. -/
def readUntilLoop (search : List UInt8 → Nat → Option Nat) :
    Nat → Nat → σ → β → Option (Ended σ β)
  | 0, _, _, _ => none
  | fuel + 1, search_pos, s, b =>
    match search (data b) search_pos with
    | some p => some ⟨.returns p, s, b⟩
    | none =>
      if size b = max_size b then some ⟨.throws .not_found, s, b⟩
      else
        match prepare b (bytes_to_read b) with
        | none => some ⟨.length_error, s, b⟩
        | some prep =>
          match dev.read_some s (bytes_to_read b) with
          | (.value bytes, s) =>
            readUntilLoop search fuel (data b).length s (commit (fill prep bytes) bytes.length)
          | (.error ec, s) => some ⟨.throws ec, s, prep⟩
          | (.stopped, s) => some ⟨.throws .operation_canceled, s, prep⟩

def readUntilChar (c : UInt8) (fuel : Nat) (s : σ) (b : β) : Option (Ended σ β) :=
  readUntilLoop dev (searchChar c) fuel 0 s b

def readUntilString (d : List UInt8) (fuel : Nat) (s : σ) (b : β) : Option (Ended σ β) :=
  match d with
  | [] => some ⟨.returns 0, s, b⟩
  | [c] => readUntilChar dev c fuel s b
  | d => readUntilLoop dev (searchString d) fuel 0 s b

def read_until (delim : Delim) (fuel : Nat) (s : σ) (b : β) : Option (Ended σ β) :=
  match delim with
  | .char c => readUntilChar dev c fuel s b
  | .string d => readUntilString dev d fuel s b

end Sync

/-- The state of an asynchronous operation. `read_state` is the size of the span of the read in
flight, `completions` are the calls of `set_value` on the outer receiver, and an exception that
leaves `do_read` terminates the program. -/
structure State (σ : Type u) (β : Type v) where
  device : σ
  buffer : β
  search_pos : Nat := 0
  read_state : Option Nat := none
  completions : List (Option ErrorCode × Nat) := []
  terminated : Bool := false

section Async

variable [DynamicBuffer β]

def State.complete (st : State σ β) (ec : Option ErrorCode) (n : Nat) : State σ β :=
  { st with completions := st.completions ++ [(ec, n)] }

def Delim.search : Delim → List UInt8 → Nat → Option Nat
  | .char c => searchChar c
  | .string d => searchString d

/-- The search, that answers 0 and remembers how far it came when it finds nothing. -/
def search (delim : Delim) (st : State σ β) : Nat × State σ β :=
  match delim.search (data st.buffer) st.search_pos with
  | some p => (p, st)
  | none => (0, { st with search_pos := (data st.buffer).length })

def do_read (st : State σ β) : State σ β :=
  match prepare st.buffer (bytes_to_read st.buffer) with
  | none => { st with terminated := true }
  | some prep => { st with buffer := prep, read_state := some (bytes_to_read st.buffer) }

def search_and_read (delim : Delim) (st : State σ β) : State σ β :=
  let (pos, st) := search delim st
  if 0 < pos then st.complete none pos
  else if size st.buffer = max_size st.buffer then st.complete (some .not_found) 0
  else do_read st

def start (delim : Delim) (st : State σ β) : State σ β :=
  match delim with
  | .string [] => st.complete none 0
  | delim => search_and_read delim st

/-- The calls of the inner receiver. -/
def set_value (delim : Delim) (bytes : List UInt8) (st : State σ β) : State σ β :=
  if bytes.length = 0 then st.complete none 0
  else
    search_and_read delim { st with buffer := commit (fill st.buffer bytes) bytes.length }

def set_error (ec : ErrorCode) (st : State σ β) : State σ β := st.complete (some ec) 0

def set_stopped (st : State σ β) : State σ β := set_error .operation_canceled st

/-- The completion of the read in flight. -/
def deliver (dev : InputStreamDevice σ) (delim : Delim) (st : State σ β) : Option (State σ β) :=
  st.read_state.map fun n =>
    let (c, s) := dev.read_some st.device n
    let st := { st with device := s, read_state := none }
    match c with
    | .value bytes => set_value delim bytes st
    | .error ec => set_error ec st
    | .stopped => set_stopped st

/-- The operation while reads complete, at most `fuel` of them. -/
def run (dev : InputStreamDevice σ) (delim : Delim) : Nat → State σ β → State σ β
  | 0, st => st
  | fuel + 1, st =>
    match deliver dev delim st with
    | none => st
    | some st => run dev delim fuel st

def async_read_until (dev : InputStreamDevice σ) (delim : Delim) (fuel : Nat) (s : σ) (b : β) :
    State σ β :=
  run dev delim fuel (start delim { device := s, buffer := b })

end Async

end Coio.Io
