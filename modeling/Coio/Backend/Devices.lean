import Coio.Backend.Agreement
import Coio.Io.Requests

namespace Coio.Backend
open Io DynamicBuffer LawfulDynamicBuffer
set_option autoImplicit true

def bytes : Payload (List UInt8) := ⟨List.length, []⟩

/-- A stream socket in the kernel, by what `recv` answers in the end. -/
structure Kernel (σ : Type u) where
  recv : σ → Nat → Answer (List UInt8) × σ
  length_le : ∀ s n data, (recv s n).1 = .value data → data.length ≤ n
  settled : ∀ s n, ¬ (recv s n).1.Blocking
  nothing : ∀ s, (recv s 0).1 = .value []

def completion (code : Error → ErrorCode) : Result α → Completion α
  | .stopped => .stopped
  | .value a => .value a
  | .error e => .error (code e)

section Devices

variable (K : Kernel σ) (fd : Nat) (code : Error → ErrorCode)

/-- What `receive` makes of the answer of the kernel. -/
def Kernel.received (s : σ) (n : Nat) : Result (List UInt8) :=
  result (settle ((Call.receive true n).finish bytes) (K.recv s n).1)

variable {K}

theorem Kernel.received_value (h : K.received s n = .value ds) :
    ds.length ≤ n ∧ (0 < n → ds ≠ []) := by
  unfold Kernel.received at h
  cases hr : (K.recv s n).1 with
  | errno e =>
    rw [hr] at h
    cases h
  | value ds' =>
    have hlen := K.length_le s n ds' hr
    rw [hr, settle, Call.finish, Payload.or_eof] at h
    split at h
    · cases h
    · rename_i hne
      cases h
      refine ⟨hlen, fun hn hnil => hne ⟨by simpa using Nat.ne_of_gt hn, ?_⟩⟩
      rw [hnil]
      rfl

/-- Where there is nothing to receive, the call that is not made would have received nothing. -/
theorem Kernel.outcome_receive (s : σ) (n : Nat) :
    result ((Call.receive true n).outcome bytes (K.recv s n).1) = K.received s n := by
  cases hskips : (Call.receive true n).skips with
  | true =>
    obtain ⟨-, rfl⟩ := Call.receive_skips.1 hskips
    rw [Call.outcome_of_skips hskips, Kernel.received, K.nothing]
    rfl
  | false =>
    rw [Call.outcome_of_call hskips]
    rfl

theorem Kernel.calls_of_canceled {s : σ} {n : Nat} (h : (K.recv s n).1 = .errno ECANCELED) :
    (Call.receive true n).skips = false := by
  refine Bool.eq_false_iff.2 fun hskips => ?_
  obtain ⟨-, rfl⟩ := Call.receive_skips.1 hskips
  rw [K.nothing] at h
  cases h

variable (K)

/-- The socket as a device that reads with a form of `receive`. -/
def Kernel.device (form : σ → Nat → Result (List UInt8))
    (h : ∀ s n, form s n = K.received s n ∨ form s n = .stopped) : InputStreamDevice σ where
  read_some s n := (completion code (form s n), (K.recv s n).2)
  length_le s n ds hread := by
    have hvalue : form s n = .value ds := by
      cases hf : form s n with
      | value => simpa [hf, completion] using hread
      | _ => simp [hf, completion] at hread
    rcases h s n with hf | hf
    · exact (Kernel.received_value (hf.symm.trans hvalue)).1
    · rw [hf] at hvalue
      cases hvalue

section Forms

variable (syncs : ∀ s n, SyncRun (K.recv s n).1) (epolls : ∀ s n, EpollRun (K.recv s n).1)

def Kernel.sync_receive (s : σ) (n : Nat) : Result (List UInt8) :=
  ((Call.receive true n).sync bytes (some fd) (syncs s n).rounds).elim .stopped result

def Kernel.epoll_receive (s : σ) (n : Nat) : Result (List UInt8) :=
  ((Call.receive true n).epoll bytes (some fd) (epolls s n).rounds (epolls s n).events).getD
    .stopped

def Kernel.uring_receive (s : σ) (n : Nat) : Result (List UInt8) :=
  (Call.receive true n).uring bytes (some fd) true (K.recv s n).1

theorem Kernel.sync_received (s : σ) (n : Nat) : K.sync_receive fd syncs s n = K.received s n := by
  rw [Kernel.sync_receive, Call.sync_decisive (syncs s n).decisive (syncs s n).polls]
  exact K.outcome_receive s n

theorem Kernel.epoll_received (s : σ) (n : Nat) :
    K.epoll_receive fd epolls s n = K.received s n := by
  rw [Kernel.epoll_receive, Call.epoll_decisive (epolls s n).registers (epolls s n).decisive]
  exact K.outcome_receive s n

theorem Kernel.uring_received (s : σ) (n : Nat) : K.uring_receive fd s n =
    if (K.recv s n).1 = .errno ECANCELED then .stopped else K.received s n := by
  rw [Kernel.uring_receive, Call.uring_decisive, K.outcome_receive]
  by_cases hcanceled : (K.recv s n).1 = .errno ECANCELED
  · rw [if_pos ⟨K.calls_of_canceled hcanceled, hcanceled⟩, if_pos hcanceled]
  · rw [if_neg (fun h => hcanceled h.2), if_neg hcanceled]

/-- A device that reads with the synchronous `receive`. -/
def Kernel.sync : InputStreamDevice σ :=
  K.device code (K.sync_receive fd syncs) fun s n => .inl (K.sync_received fd syncs s n)

/-- A device that reads with the `async_receive` of an `epoll_context`. -/
def Kernel.epoll : InputStreamDevice σ :=
  K.device code (K.epoll_receive fd epolls) fun s n => .inl (K.epoll_received fd epolls s n)

/-- A device that reads with the `async_receive` of a `uring_context`. -/
def Kernel.uring : InputStreamDevice σ :=
  K.device code (K.uring_receive fd) fun s n => by
    rw [K.uring_received fd s n]
    split
    · exact .inr rfl
    · exact .inl rfl

theorem Kernel.device_congr {form form' : σ → Nat → Result (List UInt8)} (h : form = form')
    (hf : ∀ s n, form s n = K.received s n ∨ form s n = .stopped)
    (hf' : ∀ s n, form' s n = K.received s n ∨ form' s n = .stopped) :
    K.device code form hf = K.device code form' hf' := by
  subst h
  rfl

theorem Kernel.device_feeds {form : σ → Nat → Result (List UInt8)}
    (hf : ∀ s n, form s n = K.received s n ∨ form s n = .stopped) :
    Feeds (K.device code form hf) := by
  intro s n ds hn hread
  have hvalue : form s n = .value ds := by
    cases hform : form s n with
    | value => simpa [Kernel.device, hform, completion] using hread
    | _ => simp [Kernel.device, hform, completion] at hread
  rcases hf s n with hform | hform
  · exact (Kernel.received_value (hform.symm.trans hvalue)).2 hn
  · rw [hform] at hvalue
    cases hvalue

/-- On a stream socket the asynchronous `read_until` of either context agrees with the synchronous
one, however often the calls would block and whichever events come: the devices are the same, as
long as the kernel cancels nothing, and on each of them the two forms agree. -/
theorem socket_read_until [DynamicBuffer β] [LawfulDynamicBuffer β] {b : β} (hok : Ok b)
    (delim : Delim) (s : σ) :
    K.epoll fd code epolls = K.sync fd code syncs ∧
    ((∀ s n, (K.recv s n).1 ≠ .errno ECANCELED) → K.uring fd code = K.sync fd code syncs) ∧
    Agree (K.epoll fd code epolls) delim s b ∧ Agree (K.uring fd code) delim s b := by
  have hagree : ∀ {form : σ → Nat → Result (List UInt8)} hf,
      Agree (K.device code form hf) delim s b := fun hf => by
    by_cases hd : delim.bytes = []
    · exact agree_of_empty_delim hd
    · exact agree_of_fed hd hok ((K.device_feeds code hf).fed hok)
  refine ⟨?_, fun hcanceled => ?_, hagree _, hagree _⟩
  · refine K.device_congr code (funext fun s => funext fun n => ?_) _ _
    rw [K.epoll_received, K.sync_received]
  · refine K.device_congr code (funext fun s => funext fun n => ?_) _ _
    rw [K.uring_received, K.sync_received, if_neg (hcanceled s n)]

end Forms

end Devices

/-- A peer has sent all of it. -/
def sent : Kernel (List UInt8) where
  recv s n := (.value (s.take n), s.drop n)
  length_le s n data h := by
    cases h
    exact List.length_take_le n s
  settled _ _ := id
  nothing _ := rfl

/-- Each call blocks once, and its poll is interrupted. -/
def sentSync (s : List UInt8) (n : Nat) : SyncRun (sent.recv s n).1 where
  rounds := [(.errno EWOULDBLOCK, [.errno EINTR, .value 1]), ((sent.recv s n).1, [])]
  decisive := .blocks (a := .errno EWOULDBLOCK) rfl (.here id)
  polls := List.forall_mem_cons.2 ⟨fun _ => rfl, List.forall_mem_singleton.2 False.elim⟩

/-- Each operation is armed and gets a spurious event first. -/
def sentEpoll (s : List UInt8) (n : Nat) : EpollRun (sent.recv s n).1 where
  rounds := [(.errno EWOULDBLOCK, .armed)]
  events := [.errno EWOULDBLOCK, (sent.recv s n).1]
  registers := .armed (a := .errno EWOULDBLOCK) rfl
  decisive := .blocks (a := .errno EWOULDBLOCK) rfl <|
    .blocks (a := .errno EWOULDBLOCK) rfl (.here id)

theorem socket_read_until_sent :
    sent.uring 3 (fun _ => .system 1) = sent.sync 3 (fun _ => .system 1) sentSync ∧
    Agree (sent.epoll 3 (fun _ => .system 1) sentEpoll) (.char 10) [97, 10] ({} : FlatMemory) := by
  have hok : Ok ({} : FlatMemory) := FlatMemory.Ok.empty
  have h := socket_read_until sent 3 (fun _ => .system 1) sentSync sentEpoll hok (.char 10) [97, 10]
  have hkernel : ∀ s n, (sent.recv s n).1 ≠ .errno ECANCELED := fun s n he => by cases he
  exact ⟨h.2.1 hkernel, h.2.2.1⟩

end Coio.Backend
