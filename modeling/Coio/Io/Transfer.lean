import Coio.Io.Device
import Mathlib.Data.Nat.Cast.Defs

namespace Coio.Io
open Function (update)
set_option autoImplicit true

/-- A part of the memory of the caller. -/
structure Bytes where
  start : Nat
  size : Nat
  deriving DecidableEq, Repr

def Bytes.subspan (b : Bytes) (offset count : Nat) : Bytes := ⟨b.start + offset, count⟩

inductive Direction
  | read
  | write
  deriving DecidableEq, Repr

/-- Whether a device has a position of its own or is told where to read and write. -/
inductive Kind
  | stream
  | random_access
  deriving DecidableEq, Repr

/-- The memory of the caller, and the contents of the stream or file by position. Positions are
natural numbers, or wrap as `std::size_t` does. -/
structure Medium (P : Type u) where
  memory : Nat → UInt8
  content : P → UInt8

/-- A device by its script: how an operation on a span of a given size completes. A transfer that
succeeds makes progress. -/
structure PartialDevice (σ : Type u) where
  transfer_some : σ → Nat → Completion Nat × σ
  progress : ∀ s n k, 0 < n → (transfer_some s n).1 = .value k → 0 < k ∧ k ≤ n

structure Transferring (σ : Type u) (P : Type v) where
  device : σ
  medium : Medium P
  position : P

section

variable [DecidableEq P] [AddMonoidWithOne P]

/-- The byte `i` of the memory is paired with the position `p`. -/
def Medium.move (dir : Direction) (m : Medium P) (i : Nat) (p : P) : Medium P :=
  match dir with
  | .read => { m with memory := update m.memory i (m.content p) }
  | .write => { m with content := update m.content p (m.memory i) }

/-- The `n` bytes from `i` on are paired with the positions from `p` on, each once and in order. -/
def Medium.moves (dir : Direction) (m : Medium P) (i : Nat) (p : P) : Nat → Medium P
  | 0 => m
  | n + 1 => (m.moves dir i p n).move dir (i + n) (p + n)

/-- One operation of a device on a span, at the offset given or at its own position. -/
def transfer_some (kind : Kind) (dir : Direction) (dev : PartialDevice σ) (offset : P)
    (buffer : Bytes) (w : Transferring σ P) : Completion Nat × Transferring σ P :=
  let p := match kind with
    | .stream => w.position
    | .random_access => offset
  match dev.transfer_some w.device buffer.size with
  | (.value n, s) =>
    (.value n,
      { device := s
        medium := w.medium.moves dir buffer.start p n
        position := match kind with
          | .stream => p + n
          | .random_access => w.position })
  | (c, s) => (c, { w with device := s })

/-- The offset of the next operation; a stream needs none. -/
def Kind.advance (kind : Kind) (offset : P) (n : Nat) : P :=
  match kind with
  | .stream => offset
  | .random_access => offset + n

/-- The loop of the synchronous forms, that has `fuel` more rounds. -/
def transferLoop (kind : Kind) (dir : Direction) (dev : PartialDevice σ) (buffer : Bytes) :
    Nat → Nat → P → Transferring σ P → Option (Outcome × Transferring σ P)
  | 0, _, _, _ => none
  | fuel + 1, remain, offset, w =>
    match transfer_some kind dir dev offset (buffer.subspan (buffer.size - remain) remain) w with
    | (.value n, w) =>
      let remain := remain - n
      if 0 < remain then transferLoop kind dir dev buffer fuel remain (kind.advance offset n) w
      else some (.returns buffer.size, w)
    | (.error ec, w) => some (.throws ec, w)
    | (.stopped, w) => some (.throws .operation_canceled, w)

/-- A synchronous form. -/
def transfer (kind : Kind) (dir : Direction) (dev : PartialDevice σ) (offset : P) (buffer : Bytes)
    (fuel : Nat) (w : Transferring σ P) : Option (Outcome × Transferring σ P) :=
  if buffer.size = 0 then some (.returns 0, w)
  else transferLoop kind dir dev buffer fuel buffer.size offset w

def read (dev : PartialDevice σ) (buffer : Bytes) (fuel : Nat) (w : Transferring σ P) :
    Option (Outcome × Transferring σ P) :=
  transfer .stream .read dev 0 buffer fuel w

def write (dev : PartialDevice σ) (buffer : Bytes) (fuel : Nat) (w : Transferring σ P) :
    Option (Outcome × Transferring σ P) :=
  transfer .stream .write dev 0 buffer fuel w

def read_at (dev : PartialDevice σ) (offset : P) (buffer : Bytes) (fuel : Nat)
    (w : Transferring σ P) : Option (Outcome × Transferring σ P) :=
  transfer .random_access .read dev offset buffer fuel w

def write_at (dev : PartialDevice σ) (offset : P) (buffer : Bytes) (fuel : Nat)
    (w : Transferring σ P) : Option (Outcome × Transferring σ P) :=
  transfer .random_access .write dev offset buffer fuel w

/-- The sender of one operation, and what its continuation makes of the data it captured: whether
bytes remain, and the offset and span of those. -/
structure Factory (σ : Type u) (P : Type v) where
  source : P → Bytes → Transferring σ P → Completion Nat × Transferring σ P
  cont : Nat → P → Bytes → Bool × P × Bytes

/-- An asynchronous form. `inner_state` says whether an operation of the device is in flight, and
`completions` are the calls of `set_value` on the outer receiver. -/
structure TransferState (σ : Type u) (P : Type v) where
  world : Transferring σ P
  offset : P
  buffer : Bytes
  accumulated : Nat := 0
  inner_state : Bool := false
  completions : List (Option ErrorCode × Nat) := []

def TransferState.complete (st : TransferState σ P) (ec : Option ErrorCode) : TransferState σ P :=
  { st with completions := st.completions ++ [(ec, st.accumulated)] }

/-- A new operation of the device is connected and started. -/
def restart (st : TransferState σ P) : TransferState σ P := { st with inner_state := true }

def transferSetValue (bytes_transferred : Nat) (again : Bool) (st : TransferState σ P) :
    TransferState σ P :=
  let st := { st with accumulated := st.accumulated + bytes_transferred }
  if again then restart st else st.complete none

def transferSetError (ec : ErrorCode) (st : TransferState σ P) : TransferState σ P :=
  st.complete (some ec)

def transferSetStopped (st : TransferState σ P) : TransferState σ P :=
  transferSetError .operation_canceled st

/-- The completion of the operation in flight. -/
def transferDeliver (f : Factory σ P) (st : TransferState σ P) : Option (TransferState σ P) :=
  if st.inner_state then
    let (c, w) := f.source st.offset st.buffer st.world
    let st := { st with world := w, inner_state := false }
    match c with
    | .value n =>
      let (again, offset, buffer) := f.cont n st.offset st.buffer
      some (transferSetValue n again { st with offset := offset, buffer := buffer })
    | .error ec => some (transferSetError ec st)
    | .stopped => some (transferSetStopped st)
  else none

/-- The operation while the device completes, at most `fuel` times. -/
def transferRun (f : Factory σ P) : Nat → TransferState σ P → TransferState σ P
  | 0, st => st
  | fuel + 1, st =>
    match transferDeliver f st with
    | none => st
    | some st => transferRun f fuel st

def io_sender_factory (kind : Kind) (dir : Direction) (dev : PartialDevice σ) : Factory σ P where
  source := transfer_some kind dir dev
  cont n offset buffer :=
    let buffer := buffer.subspan n (buffer.size - n)
    (buffer.size ≠ 0, kind.advance offset n, buffer)

def async_transfer (kind : Kind) (dir : Direction) (dev : PartialDevice σ) (offset : P)
    (buffer : Bytes) (fuel : Nat) (w : Transferring σ P) : TransferState σ P :=
  transferRun (io_sender_factory kind dir dev) fuel
    (restart { world := w, offset := offset, buffer := buffer })

def async_read (dev : PartialDevice σ) (buffer : Bytes) (fuel : Nat) (w : Transferring σ P) :
    TransferState σ P :=
  async_transfer .stream .read dev 0 buffer fuel w

def async_write (dev : PartialDevice σ) (buffer : Bytes) (fuel : Nat) (w : Transferring σ P) :
    TransferState σ P :=
  async_transfer .stream .write dev 0 buffer fuel w

def async_read_at (dev : PartialDevice σ) (offset : P) (buffer : Bytes) (fuel : Nat)
    (w : Transferring σ P) : TransferState σ P :=
  async_transfer .random_access .read dev offset buffer fuel w

def async_write_at (dev : PartialDevice σ) (offset : P) (buffer : Bytes) (fuel : Nat)
    (w : Transferring σ P) : TransferState σ P :=
  async_transfer .random_access .write dev offset buffer fuel w

end

end Coio.Io
