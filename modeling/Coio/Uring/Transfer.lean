import Coio.Io.Transfer

namespace Coio.Uring
open Io (Bytes)
set_option autoImplicit true

/-- The operations that transfer the bytes of a span. -/
inductive Tag
  | read_some
  | write_some
  | read_some_at
  | write_some_at
  | receive
  | send
  deriving DecidableEq, Repr

inductive Opcode
  | read
  | write
  | recv
  | send
  deriving DecidableEq, Repr

/-- A submission entry of a transfer. -/
structure Sqe where
  opcode : Opcode
  fd : Int
  addr : Nat
  len : Nat
  off : Int
  msg_flags : Nat
  deriving DecidableEq, Repr

inductive ErrorCode
  | eof
  | bad_file_descriptor
  | no_buffer_space
  | system (value : Int)
  deriving DecidableEq, Repr

inductive Result
  | value (n : Nat)
  | error (ec : ErrorCode)
  | stopped
  deriving DecidableEq, Repr

/-- The state of an operation; `offset_` is that of the random-access forms and `stream_oriented_`
that of `receive`. -/
structure Node where
  fd : Int
  buffer_ : Bytes
  offset_ : Nat := 0
  stream_oriented_ : Bool := false
  deriving DecidableEq, Repr

/-- The functions of liburing that prepare an entry, whose length is a 32-bit field. -/
def io_uring_prep (opcode : Opcode) (fd : Int) (buf : Bytes) (off : Int) (msg_flags : Nat) : Sqe :=
  { opcode := opcode, fd := fd, addr := buf.start, len := buf.size % 2 ^ 32, off := off,
    msg_flags := msg_flags }

def MSG_NOSIGNAL : Nat := 0x4000

def ECANCELED : Int := 125

namespace Node

def prepare (n : Node) : Tag → Sqe
  | .read_some => io_uring_prep .read n.fd n.buffer_ (-1) 0
  | .write_some => io_uring_prep .write n.fd n.buffer_ (-1) 0
  | .read_some_at => io_uring_prep .read n.fd n.buffer_ n.offset_ 0
  | .write_some_at => io_uring_prep .write n.fd n.buffer_ n.offset_ 0
  | .receive => io_uring_prep .recv n.fd n.buffer_ 0 0
  | .send => io_uring_prep .send n.fd n.buffer_ 0 MSG_NOSIGNAL

def complete (n : Node) (tag : Tag) (cqe_res : Int) : Result :=
  if cqe_res < 0 then
    if -cqe_res = ECANCELED then .stopped else .error (.system (-cqe_res))
  else
    match tag with
    | .read_some | .read_some_at =>
      if cqe_res = 0 ∧ n.buffer_.size ≠ 0 then .error .eof else .value cqe_res.toNat
    | .receive =>
      if n.stream_oriented_ ∧ cqe_res = 0 ∧ n.buffer_.size ≠ 0 then .error .eof
      else .value cqe_res.toNat
    | .write_some | .write_some_at | .send => .value cqe_res.toNat

/-- Only `receive` has one. -/
def try_complete (n : Node) : Tag → Bool
  | .receive => n.stream_oriented_ && n.buffer_.size = 0
  | _ => false

/-- The operation is completed or its entry is in the ring, if the ring has one. -/
def do_start (n : Node) (tag : Tag) (entry : Bool) : Except Result Sqe :=
  if n.fd = -1 then .error (.error .bad_file_descriptor)
  else if n.try_complete tag then .error (.value 0)
  else if entry then .ok (n.prepare tag)
  else .error (.error .no_buffer_space)

end Node

/-- How much the kernel transfers for an entry of the length `len` when the source has, or the
target takes, `available` bytes. -/
structure Kernel where
  transfer : Nat → Nat → Nat
  le_len : ∀ len available, transfer len available ≤ len
  le_available : ∀ len available, transfer len available ≤ available
  progress : ∀ len available, 0 < len → 0 < available → 0 < transfer len available

/-- The kernel that transfers as much as it can. -/
def Kernel.full : Kernel where
  transfer := min
  le_len := Nat.min_le_left
  le_available := Nat.min_le_right
  progress _ _ h₁ h₂ := Nat.lt_min.2 ⟨h₁, h₂⟩

def Node.run (K : Kernel) (n : Node) (tag : Tag) (entry : Bool) (available : Nat) : Result :=
  match n.do_start tag entry with
  | .error r => r
  | .ok sqe => n.complete tag (K.transfer sqe.len available)

def Tag.Writes : Tag → Bool
  | .write_some | .write_some_at | .send => true
  | _ => false

/-- What an operation on a span that is not empty is for: to report the end of the source only
there, or to write something. -/
def Node.Right (K : Kernel) (n : Node) (tag : Tag) : Prop :=
  if tag.Writes then
    n.fd ≠ -1 → ∀ available, 0 < available → ∃ k, n.run K tag true available = .value k ∧ 0 < k
  else ∀ entry available, n.run K tag entry available = .error .eof → available = 0

theorem Node.prepare_len (n : Node) (tag : Tag) :
    (n.prepare tag).len = n.buffer_.size % 2 ^ 32 := by
  cases tag <;> rfl

section Transfer

variable {K : Kernel} {n : Node} {tag : Tag}

theorem Kernel.transfer_zero (K : Kernel) (available : Nat) : K.transfer 0 available = 0 :=
  Nat.eq_zero_of_le_zero (K.le_len 0 available)

/-- An entry is prepared for the operation, unless `receive` has nothing to do. -/
theorem Node.run_eq (hfd : n.fd ≠ -1) (hsize : n.buffer_.size ≠ 0) (available : Nat) :
    n.run K tag true available =
      n.complete tag (K.transfer (n.buffer_.size % 2 ^ 32) available) := by
  have htry : n.try_complete tag = false := by
    cases tag <;> simp [try_complete, hsize]
  simp only [run, do_start, if_neg hfd, htry, Bool.false_eq_true, if_false, if_true, prepare_len]

/-- A write reports what the kernel has transferred. -/
theorem Node.complete_write (h : tag.Writes) (k : Nat) : n.complete tag k = .value k := by
  cases tag with
  | write_some | write_some_at | send => simp [complete]
  | read_some | read_some_at | receive => cases h

/-- A read reports the end when nothing has been transferred to a span that is not empty. -/
theorem Node.complete_eof_iff (h : ¬ tag.Writes) (hsize : n.buffer_.size ≠ 0) (k : Nat) :
    n.complete tag k = .error .eof ↔
      k = 0 ∧ (tag = .receive → n.stream_oriented_ = true) := by
  have hneg : ¬ (k : Int) < 0 := by omega
  cases tag with
  | read_some | read_some_at =>
    by_cases hk : k = 0 <;> simp [complete, hneg, hsize, hk]
  | receive =>
    by_cases hk : k = 0 <;> cases hs : n.stream_oriented_ <;> simp [complete, hneg, hsize, hk, hs]
  | write_some | write_some_at | send => exact absurd rfl h

/-- An operation that is not submitted does not report the end. -/
theorem Node.run_eof (h : n.run K tag entry available = .error .eof) :
    n.fd ≠ -1 ∧ entry = true := by
  unfold run do_start at h
  by_cases hfd : n.fd = -1
  · simp [hfd] at h
  · refine ⟨hfd, ?_⟩
    rw [if_neg hfd] at h
    by_cases htry : n.try_complete tag = true
    · simp [htry] at h
    · cases entry with
      | true => rfl
      | false => simp [htry] at h

/-- The condition of a transfer: the length of the entry is not 0. -/
def Node.Counts (n : Node) (tag : Tag) : Prop :=
  n.fd = -1 ∨ n.buffer_.size % 2 ^ 32 ≠ 0 ∨ tag = .receive ∧ n.stream_oriented_ = false

theorem Node.right_of_counts (hsize : n.buffer_.size ≠ 0) (hc : n.Counts tag) : n.Right K tag := by
  unfold Right
  split
  · rename_i hw
    intro hfd available havailable
    have hlen : n.buffer_.size % 2 ^ 32 ≠ 0 := by
      rcases hc with h | h | ⟨rfl, -⟩
      · exact absurd h hfd
      · exact h
      · cases hw
    refine ⟨_, ?_, K.progress _ _ (Nat.pos_of_ne_zero hlen) havailable⟩
    rw [run_eq hfd hsize, complete_write hw]
  · rename_i hw
    intro entry available heof
    obtain ⟨hfd, rfl⟩ := run_eof heof
    rw [run_eq hfd hsize, complete_eof_iff hw hsize] at heof
    obtain ⟨hzero, hstream⟩ := heof
    rcases hc with h | h | ⟨ht, hs⟩
    · exact absurd h hfd
    · by_contra hne
      have hpos := K.progress _ _ (Nat.pos_of_ne_zero h) (Nat.pos_of_ne_zero hne)
      omega
    · rw [hstream ht] at hs
      cases hs

theorem Node.counts_of_right (hsize : n.buffer_.size ≠ 0) (h : n.Right K tag) : n.Counts tag := by
  by_contra hc
  obtain ⟨hfd, hlen, hdatagram⟩ : n.fd ≠ -1 ∧ n.buffer_.size % 2 ^ 32 = 0 ∧
      ¬ (tag = .receive ∧ n.stream_oriented_ = false) := by
    simpa [Counts] using hc
  have hrun : n.run K tag true 1 = n.complete tag (0 : Nat) := by
    rw [run_eq hfd hsize, hlen, K.transfer_zero]
  unfold Right at h
  split at h
  · rename_i hw
    obtain ⟨k, hk, hpos⟩ := h hfd 1 Nat.one_pos
    rw [hrun, complete_write hw] at hk
    cases hk
    exact absurd hpos (Nat.lt_irrefl 0)
  · rename_i hw
    refine absurd (h true 1 ?_) Nat.one_ne_zero
    rw [hrun, complete_eof_iff hw hsize]
    refine ⟨rfl, fun ht => ?_⟩
    cases hs : n.stream_oriented_ with
    | true => rfl
    | false => exact absurd ⟨ht, hs⟩ hdatagram

/-- The spans that are left to write in a run of `async_write` or `async_write_at`. -/
inductive Remaining (K : Kernel) (n : Node) (tag : Tag) : Bytes → Prop
  | start : Remaining K n tag n.buffer_
  | round : Remaining K n tag b → b.size ≠ 0 →
      ({ n with buffer_ := b } : Node).run K tag true available = .value k →
      Remaining K n tag (b.subspan k (b.size - k))

/-- A round writes from the bytes that are more than a multiple of the range of the length. -/
theorem Remaining.div (h : Remaining K n tag b) (hw : tag.Writes) :
    b.size / 2 ^ 32 = n.buffer_.size / 2 ^ 32 := by
  induction h with
  | start => rfl
  | @round b available k _ hb hrun ih =>
    by_cases hfd : n.fd = -1
    · simp [Node.run, Node.do_start, hfd] at hrun
    · rw [Node.run_eq (n := { n with buffer_ := b }) hfd hb, Node.complete_write hw] at hrun
      have hle := K.le_len (b.size % 2 ^ 32) available
      have hk : K.transfer (b.size % 2 ^ 32) available = k := by
        cases hrun
        rfl
      have hsize : (b.subspan k (b.size - k)).size = b.size - k := rfl
      rw [hsize]
      omega

/-- Whatever is written, a multiple of the range of the length is left. -/
theorem Remaining.reaches (h : Remaining K n tag b) (hw : tag.Writes) (hfd : n.fd ≠ -1)
    (hge : 2 ^ 32 ≤ b.size) :
    ∃ b, Remaining K n tag b ∧ 2 ^ 32 ≤ b.size ∧ b.size % 2 ^ 32 = 0 := by
  induction hr : b.size % 2 ^ 32 using Nat.strong_induction_on generalizing b with
  | _ r ih =>
    by_cases h₀ : b.size % 2 ^ 32 = 0
    · exact ⟨b, h, hge, h₀⟩
    · have hb : b.size ≠ 0 := by omega
      have hpos := K.progress (b.size % 2 ^ 32) 1 (Nat.pos_of_ne_zero h₀) Nat.one_pos
      have hle := K.le_len (b.size % 2 ^ 32) 1
      have hrun : ({ n with buffer_ := b } : Node).run K tag true 1 =
          .value (K.transfer (b.size % 2 ^ 32) 1) := by
        rw [Node.run_eq (n := { n with buffer_ := b }) hfd hb, Node.complete_write hw]
      have hsize : (b.subspan (K.transfer (b.size % 2 ^ 32) 1)
          (b.size - K.transfer (b.size % 2 ^ 32) 1)).size =
            b.size - K.transfer (b.size % 2 ^ 32) 1 := rfl
      have hnext := h.round hb hrun
      exact ih _ (by rw [hsize]; omega) hnext (by rw [hsize]; omega) rfl

/-- A run of `async_write` makes progress as long as the target is writable. -/
def Node.Advances (K : Kernel) (n : Node) (tag : Tag) : Prop :=
  ∀ b, Remaining K n tag b → b.size ≠ 0 → ({ n with buffer_ := b } : Node).Right K tag

end Transfer

/-- A transfer does what it is for exactly where the length of its entry is not 0, and a whole write
where its bytes can be counted with 32 bits. -/
theorem transfer_iff (K : Kernel) (n : Node) (tag : Tag) (hsize : n.buffer_.size ≠ 0) :
    (n.Right K tag ↔ n.Counts tag) ∧
      (tag.Writes → n.fd ≠ -1 → (n.Advances K tag ↔ n.buffer_.size < 2 ^ 32)) := by
  refine ⟨⟨Node.counts_of_right hsize, Node.right_of_counts hsize⟩, fun hw hfd =>
    ⟨fun h => ?_, fun hlt b hb h₀ => ?_⟩⟩
  · by_contra hge
    have hstart : Remaining K n tag n.buffer_ := .start
    obtain ⟨b, hb, hb₁, hb₂⟩ := hstart.reaches hw hfd (Nat.le_of_not_lt hge)
    have hc := Node.counts_of_right (by dsimp only; omega) (h b hb (by omega))
    rcases hc with h | h | ⟨rfl, -⟩
    · exact hfd h
    · exact h hb₂
    · cases hw
  · have hdiv := hb.div hw
    refine Node.right_of_counts h₀ (.inr (.inl ?_))
    dsimp only
    omega

/-- The length that the IOCP backend passes on for a span. -/
def iocp_len (buffer : Bytes) : Nat := min buffer.size 0xffffffff

/-- The sibling, which clamps, transfers something whatever the size is. -/
theorem iocp_transfers (K : Kernel) {buffer : Bytes} (hsize : buffer.size ≠ 0)
    (havailable : 0 < available) : 0 < K.transfer (iocp_len buffer) available := by
  have hlen : 0 < iocp_len buffer := Nat.lt_min.2 ⟨Nat.pos_of_ne_zero hsize, by decide⟩
  exact K.progress _ _ hlen havailable

/-- A read of five bytes. -/
theorem transfer_five : (Node.mk 3 ⟨64, 5⟩ 0 false).Right Kernel.full .read_some :=
  (transfer_iff Kernel.full _ .read_some (by decide)).1.2 (.inr (.inl (by decide)))

/-- A read of 4 GiB reports the end of any source, and a write of them writes nothing. -/
theorem transfer_nothing :
    ¬ (Node.mk 3 ⟨64, 2 ^ 32⟩ 0 false).Right Kernel.full .read_some ∧
      ¬ (Node.mk 3 ⟨64, 2 ^ 32⟩ 0 false).Right Kernel.full .write_some := by
  constructor
  · intro h
    exact absurd (h true 1 (by decide)) (by decide)
  · intro h
    obtain ⟨k, hk, hpos⟩ := h (by decide) 1 Nat.one_pos
    have hrun : (Node.mk 3 ⟨64, 2 ^ 32⟩ 0 false).run Kernel.full .write_some true 1 = .value 0 := by
      decide
    rw [hrun] at hk
    cases hk
    exact absurd hpos (Nat.lt_irrefl 0)

end Coio.Uring
