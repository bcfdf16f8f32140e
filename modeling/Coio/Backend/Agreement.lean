import Coio.Backend.Model

namespace Coio.Backend
set_option autoImplicit true

/-- The first of the answers that does not block is `d`. -/
inductive Decisive (d : Answer α) : List (Answer α) → Prop
  | here (hd : ¬ d.Blocking) : Decisive d (d :: answers)
  | blocks (ha : a.Blocking) (h : Decisive d answers) : Decisive d (a :: answers)

/-- The rounds of a `do_start` whose registrations succeed: the last one completes it or arms the
event, and each one before is repeated. -/
inductive Registers : List (Answer α × RegisterResult) → Prop
  | completes (ha : ¬ a.Blocking) : Registers ((a, r) :: rounds)
  | armed (ha : a.Blocking) : Registers [(a, .armed)]
  | ready (ha : a.Blocking) (h : Registers rounds) : Registers ((a, .ready) :: rounds)

/-- What a synchronous form meets before it gets the answer `d`. -/
structure SyncRun (d : Answer α) where
  rounds : List (Answer α × List (Answer Nat))
  decisive : Decisive d (rounds.map Prod.fst)
  polls : ∀ r ∈ rounds, r.1.Blocking → poll_file r.2 = some (.ok ())

/-- What an operation of an `epoll_context` meets before it gets the answer `d`. -/
structure EpollRun (d : Answer α) where
  rounds : List (Answer α × RegisterResult)
  events : List (Answer α)
  registers : Registers rounds
  decisive : Decisive d (rounds.map Prod.fst ++ events)

/-- There is nothing to receive, and no form makes a system call. -/
def Call.skips : Call → Bool
  | .receive stream_oriented size => stream_oriented && size = 0
  | _ => false

/-- A transfer of no bytes, for which only an `epoll_context` makes no system call. -/
def Call.empty : Call → Bool
  | .read_some size | .write_some size => size = 0
  | _ => false

/-- What an operation makes of the value that its system call returns. -/
def Call.finish (π : Payload α) : Call → α → Except Error α
  | .read_some size => π.or_eof (size ≠ 0)
  | .receive stream_oriented size => π.or_eof (stream_oriented && size ≠ 0)
  | _ => .ok

/-- What the decisive answer means for an operation. -/
def settle (finish : α → Except Error α) : Answer α → Except Error α
  | .value a => finish a
  | .errno e => .error (.system e)

/-- What an operation comes to whose system call is answered so in the end. -/
def Call.outcome (π : Payload α) (d : Answer α) (call : Call) : Except Error α :=
  if call.skips then .ok π.zero else settle (call.finish π) d

variable {π : Payload α} {call : Call} {d : Answer α} {finish : α → Except Error α}

theorem Answer.Blocking.errno {a : Answer α} (h : a.Blocking) :
    ∃ e, a = .errno e ∧ is_blocking_errno e = true := by
  cases a with
  | value => exact h.elim
  | errno e => exact ⟨e, rfl, h⟩

theorem retry_decisive (h : Decisive d (rounds.map Prod.fst))
    (hp : ∀ r ∈ rounds, r.1.Blocking → poll_file r.2 = some (.ok ())) :
    retry finish rounds = some (settle finish d) := by
  induction rounds with
  | nil => cases h
  | cons r rounds ih =>
    obtain ⟨a, polls⟩ := r
    rw [List.map_cons] at h
    cases h with
    | here hd =>
      cases a with
      | value a => rfl
      | errno e => exact if_neg hd
    | blocks ha h =>
      obtain ⟨e, rfl, he⟩ := ha.errno
      obtain ⟨hpoll, hp⟩ := List.forall_mem_cons.1 hp
      rw [retry, if_pos he, hpoll he]
      exact ih h hp

theorem start_loop_decisive (hr : Registers rounds)
    (h : Decisive d (rounds.map Prod.fst ++ events)) :
    (start_loop finish rounds = some .pending ∧ Decisive d events) ∨
      start_loop finish rounds = some (.completed (result (settle finish d))) := by
  induction hr with
  | @completes a r rounds ha =>
    cases h with
    | here hd =>
      cases a with
      | value a => exact .inr rfl
      | errno e => exact .inr (if_neg hd)
    | blocks hb => exact absurd hb ha
  | armed ha =>
    cases h with
    | here hd => exact absurd ha hd
    | blocks _ h =>
      obtain ⟨e, rfl, he⟩ := ha.errno
      exact .inl ⟨if_pos he, h⟩
  | ready ha hr ih =>
    cases h with
    | here hd => exact absurd ha hd
    | blocks _ h =>
      obtain ⟨e, rfl, he⟩ := ha.errno
      rw [start_loop, if_pos he]
      exact ih h

theorem perform_decisive (h : Decisive d events) :
    events.findSome? (perform_call finish) = some (result (settle finish d)) := by
  induction h with
  | here hd =>
    rw [List.findSome?_cons]
    cases d with
    | value a => rfl
    | errno e =>
      have he : perform_call finish (.errno e) = some (.error (.system e)) := if_neg hd
      rw [he]
      rfl
  | blocks ha h ih =>
    obtain ⟨e, rfl, he⟩ := ha.errno
    rw [List.findSome?_cons, perform_call, if_pos he]
    exact ih

/-- `do_start` and the events after it, where `perform` makes the same of its system call. -/
theorem epoll_decisive (hr : Registers rounds) (h : Decisive d (rounds.map Prod.fst ++ events))
    (perform : Answer α → Option (Result α)) (hp : perform = perform_call finish) :
    ((start_loop finish rounds).bind fun
      | .completed r => some r
      | .pending => events.findSome? perform) = some (result (settle finish d)) := by
  subst hp
  rcases start_loop_decisive hr h with ⟨hloop, hevents⟩ | hloop
  · rw [hloop]
    exact perform_decisive hevents
  · rw [hloop]
    rfl

theorem Call.outcome_of_skips (h : call.skips = true) : call.outcome π d = .ok π.zero := if_pos h

theorem Call.outcome_of_call (h : call.skips = false) :
    call.outcome π d = settle (call.finish π) d :=
  if_neg (by simp [h])

theorem Call.receive_skips {stream_oriented : Bool} {size : Nat} :
    (Call.receive stream_oriented size).skips = true ↔ stream_oriented = true ∧ size = 0 := by
  rw [Call.skips, Bool.and_eq_true, decide_eq_true_eq]

theorem Call.receive_calls {stream_oriented : Bool} {size : Nat}
    (h : ¬ (stream_oriented = true ∧ size = 0)) :
    (Call.receive stream_oriented size).skips = false :=
  Bool.eq_false_iff.2 fun hs => h (Call.receive_skips.1 hs)

theorem Call.finish_of_empty (h : call.empty = true) : call.finish π = .ok := by
  cases call with
  | read_some size =>
    obtain rfl : size = 0 := of_decide_eq_true h
    rfl
  | write_some size => rfl
  | _ => cases h

theorem Call.skips_of_empty (h : call.empty = true) : call.skips = false := by
  cases call with
  | read_some | write_some => rfl
  | _ => cases h

theorem Call.sync_decisive (h : Decisive d (rounds.map Prod.fst))
    (hp : ∀ r ∈ rounds, r.1.Blocking → poll_file r.2 = some (.ok ())) :
    call.sync π (some fd) rounds = some (call.outcome π d) := by
  cases call with
  | receive stream_oriented size =>
    show (if stream_oriented = true ∧ size = 0 then some (.ok π.zero)
      else retry (π.or_eof (stream_oriented && size ≠ 0)) rounds) = _
    split
    · rename_i hs
      rw [Call.outcome_of_skips (Call.receive_skips.2 hs)]
    · rename_i hs
      rw [Call.outcome_of_call (Call.receive_calls hs)]
      exact retry_decisive h hp
  | _ => exact retry_decisive h hp

/-- An `epoll_context` completes an empty `read_some` or `write_some` by itself. -/
theorem Call.epoll_decisive (hr : Registers rounds)
    (h : Decisive d (rounds.map Prod.fst ++ events)) :
    call.epoll π (some fd) rounds events =
      some (if call.empty then .value π.zero else result (call.outcome π d)) := by
  cases call with
  | read_some size =>
    by_cases hs : size = 0
    · subst hs
      rfl
    · rw [Call.epoll, Call.do_start, if_neg (by simp), if_neg hs, if_neg (by simp [Call.empty, hs])]
      exact Backend.epoll_decisive hr h _ rfl
  | write_some size =>
    by_cases hs : size = 0
    · subst hs
      rfl
    · rw [Call.epoll, Call.do_start, if_neg (by simp), if_neg hs, if_neg (by simp [Call.empty, hs])]
      exact Backend.epoll_decisive hr h _ rfl
  | receive stream_oriented size =>
    by_cases hs : stream_oriented = true ∧ size = 0
    · rw [Call.outcome_of_skips (Call.receive_skips.2 hs), hs.1, hs.2]
      rfl
    · rw [Call.outcome_of_call (Call.receive_calls hs), Call.epoll, Call.do_start,
        if_neg (by simp), if_neg hs]
      exact Backend.epoll_decisive hr h _ (funext fun answer => if_neg hs)
  | _ => exact Backend.epoll_decisive hr h _ rfl

theorem complete_cqe_eq [DecidableEq α] : complete_cqe finish d =
    if d = .errno ECANCELED then .stopped else result (settle finish d) := by
  cases d with
  | value a => rfl
  | errno e =>
    rw [complete_cqe]
    simp only [Answer.errno.injEq]
    rfl

theorem Call.uring_decisive [DecidableEq α] :
    call.uring π (some fd) true d =
      if call.skips = false ∧ d = .errno ECANCELED then .stopped
      else result (call.outcome π d) := by
  cases call with
  | receive stream_oriented size =>
    by_cases hs : stream_oriented = true ∧ size = 0
    · have hskips := Call.receive_skips.2 hs
      rw [if_neg (by simp [hskips]), Call.outcome_of_skips hskips, hs.1, hs.2]
      rfl
    · have hcalls := Call.receive_calls hs
      have htry : (Call.receive stream_oriented size).try_complete π = none := if_neg hs
      rw [Call.uring, Call.submit, if_neg (by simp), htry, Call.outcome_of_call hcalls]
      simp only [hcalls, true_and]
      exact complete_cqe_eq
  | _ =>
    simp only [Call.skips, true_and]
    exact complete_cqe_eq

/-- On an empty transfer the answer of the kernel is lost on an `epoll_context`. -/
theorem Call.empty_agrees (h : call.empty = true) :
    (.value π.zero : Result α) = result (call.outcome π d) ↔ d = .value π.zero := by
  rw [Call.outcome_of_call (Call.skips_of_empty h), Call.finish_of_empty h]
  cases d with
  | value a =>
    rw [Answer.value.injEq]
    exact ⟨fun he => (Result.value.inj he).symm, fun he => congrArg Result.value he.symm⟩
  | errno e =>
    constructor
    · intro he
      cases he
    · intro he
      cases he

/-- The synchronous form and the asynchronous ones of both contexts make the same of what the system
call answers in the end, however often it would block and however many events come before, with two
differences: a cancellation by the kernel is an error in the others and a stop on a `uring_context`,
and an empty `read_some` or `write_some` on an `epoll_context` never learns what the call would have
answered. -/
theorem backends_agree [DecidableEq α] (sync : SyncRun d) (epoll : EpollRun d) :
    call.sync π (some fd) sync.rounds = some (call.outcome π d) ∧
    call.uring π (some fd) true d =
      (if call.skips = false ∧ d = .errno ECANCELED then .stopped
        else result (call.outcome π d)) ∧
    call.epoll π (some fd) epoll.rounds epoll.events =
      some (if call.empty then .value π.zero else result (call.outcome π d)) ∧
    (call.epoll π (some fd) epoll.rounds epoll.events = some (result (call.outcome π d)) ↔
      (call.empty = true → d = .value π.zero)) := by
  have hepoll : call.epoll π (some fd) epoll.rounds epoll.events = _ :=
    Call.epoll_decisive epoll.registers epoll.decisive
  refine ⟨Call.sync_decisive sync.decisive sync.polls, Call.uring_decisive, hepoll, ?_⟩
  rw [hepoll, Option.some.injEq]
  cases he : call.empty with
  | false => exact iff_of_true rfl fun h => by cases h
  | true =>
    rw [if_pos rfl, Call.empty_agrees he]
    exact ⟨fun hd _ => hd, fun hd => hd rfl⟩

/-- An end of file that comes after a call that blocks, with an interrupted poll. -/
def eofSync : SyncRun (.value ([] : List UInt8)) where
  rounds := [(.errno EWOULDBLOCK, [.errno EINTR, .value 1]), (.value [], [])]
  decisive := .blocks (a := .errno EWOULDBLOCK) rfl (.here id)
  polls := List.forall_mem_cons.2 ⟨fun _ => rfl, List.forall_mem_singleton.2 False.elim⟩

/-- The end of file comes after an event that the registration finds and one that is spurious. -/
def eofEpoll : EpollRun (.value ([] : List UInt8)) where
  rounds := [(.errno EWOULDBLOCK, .ready), (.errno EWOULDBLOCK, .armed)]
  events := [.errno EWOULDBLOCK, .value []]
  registers := .ready (a := .errno EWOULDBLOCK) rfl (.armed (a := .errno EWOULDBLOCK) rfl)
  decisive := .blocks (a := .errno EWOULDBLOCK) rfl <| .blocks (a := .errno EWOULDBLOCK) rfl <|
    .blocks (a := .errno EWOULDBLOCK) rfl (.here id)

def EISDIR : Nat := 21

theorem directory_decisive : ¬ (Answer.errno EISDIR : Answer α).Blocking :=
  show ¬ is_blocking_errno EISDIR = true by decide

/-- The descriptor is that of a directory. -/
def directorySync : SyncRun (.errno EISDIR : Answer (List UInt8)) where
  rounds := [(.errno EISDIR, [])]
  decisive := .here directory_decisive
  polls := List.forall_mem_singleton.2 fun hb => absurd hb directory_decisive

def directoryEpoll : EpollRun (.errno EISDIR : Answer (List UInt8)) where
  rounds := [(.errno EISDIR, .armed)]
  events := []
  registers := .completes directory_decisive
  decisive := .here directory_decisive

/-- At the end of file all forms agree, and on an empty read of a directory they do not. -/
theorem backends_agree_eof :
    (Call.sync ⟨List.length, []⟩ (some 3) eofSync.rounds (.receive true 8) = some (.error .eof) ∧
      Call.uring ⟨List.length, []⟩ (some 3) true (.value ([] : List UInt8)) (.receive true 8) =
        .error .eof ∧
      Call.epoll ⟨List.length, []⟩ (some 3) eofEpoll.rounds eofEpoll.events (.receive true 8) =
        some (.error .eof)) ∧
    Call.sync ⟨List.length, []⟩ (some 3) directorySync.rounds (.read_some 0) =
      some (.error (.system EISDIR)) ∧
    Call.epoll ⟨List.length, []⟩ (some 3) directoryEpoll.rounds directoryEpoll.events
      (.read_some 0) = some (.value []) := by
  refine ⟨⟨?_, ?_, ?_⟩, ?_, ?_⟩
  · exact (backends_agree eofSync eofEpoll).1
  · exact (backends_agree eofSync eofEpoll).2.1
  · exact (backends_agree eofSync eofEpoll).2.2.1
  · exact (backends_agree directorySync directoryEpoll).1
  · exact (backends_agree directorySync directoryEpoll).2.2.1

end Coio.Backend
