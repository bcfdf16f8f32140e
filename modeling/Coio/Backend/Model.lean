import Mathlib.Data.Nat.Notation

namespace Coio.Backend
set_option autoImplicit true

/-- What a system call returns, or `errno`. -/
inductive Answer (α : Type u)
  | value (a : α)
  | errno (e : Nat)
  deriving DecidableEq, Repr

def EINTR : Nat := 4

def EWOULDBLOCK : Nat := 11

def ECANCELED : Nat := 125

def is_blocking_errno (errno_ : Nat) : Bool := errno_ = EWOULDBLOCK

def Answer.Blocking : Answer α → Prop
  | .value _ => False
  | .errno e => is_blocking_errno e = true

inductive Error
  | bad_file_descriptor
  | no_buffer_space
  | eof
  | system (errno_ : Nat)
  deriving DecidableEq, Repr

/-- The contents of an `async_result`. -/
inductive Result (α : Type u)
  | stopped
  | value (a : α)
  | error (e : Error)
  deriving DecidableEq, Repr

def result : Except Error α → Result α
  | .ok a => .value a
  | .error e => .error e

/-- The operations of an `io_object`, with the size of the buffer. -/
inductive Call
  | read_some (size : Nat)
  | write_some (size : Nat)
  | receive (stream_oriented : Bool) (size : Nat)
  | send (size : Nat)
  | receive_from (size : Nat)
  | send_to (size : Nat)
  | accept
  deriving DecidableEq, Repr

/-- What is transferred: `zero` is no byte at all. -/
structure Payload (α : Type u) where
  count : α → Nat
  zero : α

/-- What an operation that reads makes of `n`, the number of bytes. -/
def Payload.or_eof (π : Payload α) (guarded : Bool) (a : α) : Except Error α :=
  if guarded = true ∧ π.count a = 0 then .error .eof else .ok a

section Synchronous

def poll_file : List (Answer Nat) → Option (Except Error Unit)
  | [] => none
  | .errno e :: polls => if e = EINTR then poll_file polls else some (.error (.system e))
  | .value _ :: _ => some (.ok ())

/-- The loop of the synchronous forms. Each round is a system call and the polls that follow it if
it would block. -/
def retry (finish : α → Except Error α) :
    List (Answer α × List (Answer Nat)) → Option (Except Error α)
  | [] => none
  | (.value a, _) :: _ => some (finish a)
  | (.errno e, polls) :: rounds =>
    if is_blocking_errno e then
      match poll_file polls with
      | none => none
      | some (.error e) => some (.error e)
      | some (.ok ()) => retry finish rounds
    else some (.error (.system e))

variable (π : Payload α) (handle : Option Nat) (rounds : List (Answer α × List (Answer Nat)))

def check_fd (call : Option (Except Error α)) : Option (Except Error α) :=
  if handle = none then some (.error .bad_file_descriptor) else call

def file_read (size : Nat) : Option (Except Error α) :=
  retry (π.or_eof (size ≠ 0)) rounds

def file_write : Option (Except Error α) := retry .ok rounds

def receive (stream_oriented : Bool) (size : Nat) : Option (Except Error α) :=
  check_fd handle <|
    if stream_oriented = true ∧ size = 0 then some (.ok π.zero)
    else retry (π.or_eof (stream_oriented && size ≠ 0)) rounds

def send : Option (Except Error α) := check_fd handle (retry .ok rounds)

def receive_from : Option (Except Error α) := check_fd handle (retry .ok rounds)

def send_to : Option (Except Error α) := check_fd handle (retry .ok rounds)

def accept : Option (Except Error α) := check_fd handle (retry .ok rounds)

/-- The synchronous operations of an `io_object`. -/
def Call.sync : Call → Option (Except Error α)
  | .read_some size => file_read π rounds size
  | .write_some _ => file_write rounds
  | .receive stream_oriented size => Backend.receive π handle rounds stream_oriented size
  | .send _ => Backend.send handle rounds
  | .receive_from _ => Backend.receive_from handle rounds
  | .send_to _ => Backend.send_to handle rounds
  | .accept => Backend.accept handle rounds

end Synchronous

section Epoll

inductive RegisterResult
  | armed
  | ready
  | failure (errno_ : Nat)
  deriving DecidableEq, Repr

inductive StartResult (α : Type u)
  | completed (r : Result α)
  | pending
  deriving DecidableEq, Repr

/-- The loop of `do_start`. Each round is a system call and what `register_event` says if it would
block. -/
def start_loop (finish : α → Except Error α) :
    List (Answer α × RegisterResult) → Option (StartResult α)
  | [] => none
  | (.value a, _) :: _ => some (.completed (result (finish a)))
  | (.errno e, register) :: rounds =>
    if is_blocking_errno e then
      match register with
      | .armed => some .pending
      | .ready => start_loop finish rounds
      | .failure e => some (.completed (.error (.system e)))
    else some (.completed (.error (.system e)))

/-- What `perform` makes of its system call; it returns false if that would block. -/
def perform_call (finish : α → Except Error α) : Answer α → Option (Result α)
  | .value a => some (result (finish a))
  | .errno e => if is_blocking_errno e then none else some (.error (.system e))

variable (π : Payload α)

def Call.do_start (fd : Option Nat) (rounds : List (Answer α × RegisterResult)) (call : Call) :
    Option (StartResult α) :=
  if fd = none then some (.completed (.error .bad_file_descriptor))
  else
    match call with
    | .read_some size =>
      if size = 0 then some (.completed (.value π.zero))
      else start_loop (π.or_eof (size ≠ 0)) rounds
    | .write_some size =>
      if size = 0 then some (.completed (.value π.zero)) else start_loop .ok rounds
    | .receive stream_oriented size =>
      if stream_oriented = true ∧ size = 0 then some (.completed (.value π.zero))
      else start_loop (π.or_eof (stream_oriented && size ≠ 0)) rounds
    | .send _ | .receive_from _ | .send_to _ | .accept => start_loop .ok rounds

def Call.perform (answer : Answer α) : Call → Option (Result α)
  | .read_some size => perform_call (π.or_eof (size ≠ 0)) answer
  | .receive stream_oriented size =>
    if stream_oriented = true ∧ size = 0 then some (.value π.zero)
    else perform_call (π.or_eof (stream_oriented && size ≠ 0)) answer
  | .write_some _ | .send _ | .receive_from _ | .send_to _ | .accept => perform_call .ok answer

/-- An operation of an `epoll_context` that is not cancelled: `do_start`, and if that leaves it
pending one `perform` for each event until one returns true. -/
def Call.epoll (fd : Option Nat) (rounds : List (Answer α × RegisterResult))
    (events : List (Answer α)) (call : Call) : Option (Result α) :=
  (call.do_start π fd rounds).bind fun
    | .completed r => some r
    | .pending => events.findSome? fun answer => call.perform π answer

end Epoll

section Uring

/-- `complete` of `uring_node_for`, where `finish` is what an operation makes of the value. -/
def complete_cqe (finish : α → Except Error α) : Answer α → Result α
  | .value a => result (finish a)
  | .errno e => if e = ECANCELED then .stopped else .error (.system e)

variable (π : Payload α)

def Call.try_complete : Call → Option (Result α)
  | .receive stream_oriented size =>
    if stream_oriented = true ∧ size = 0 then some (.value π.zero) else none
  | _ => none

def Call.complete (cqe_res : Answer α) : Call → Result α
  | .read_some size => complete_cqe (π.or_eof (size ≠ 0)) cqe_res
  | .receive stream_oriented size =>
    complete_cqe (π.or_eof (stream_oriented && size ≠ 0)) cqe_res
  | .write_some _ | .send _ | .receive_from _ | .send_to _ | .accept => complete_cqe .ok cqe_res

/-- `do_start` of `uring_node_for`; `sqe` says whether there is an entry left. -/
def Call.submit (fd : Option Nat) (sqe : Bool) (call : Call) : StartResult α :=
  if fd = none then .completed (.error .bad_file_descriptor)
  else
    match call.try_complete π with
    | some r => .completed r
    | none => if sqe then .pending else .completed (.error .no_buffer_space)

def Call.uring (fd : Option Nat) (sqe : Bool) (cqe_res : Answer α) (call : Call) : Result α :=
  match call.submit π fd sqe with
  | .completed r => r
  | .pending => call.complete π cqe_res

end Uring

end Coio.Backend
