import Coio.FlatBuffer.Refinement
import Coio.Lib.Search

namespace Coio.Io
set_option autoImplicit true

/-- The values of `std::error_code` that are not success. -/
inductive ErrorCode
  | not_found
  | operation_canceled
  | system (value : Int)
  deriving DecidableEq, Repr

/-- How an operation of a device completes. -/
inductive Completion (α : Type u)
  | value (a : α)
  | error (ec : ErrorCode)
  | stopped
  deriving DecidableEq, Repr

/-- How a synchronous call ends; `length_error` is what `prepare` throws. -/
inductive Outcome
  | returns (n : Nat)
  | throws (ec : ErrorCode)
  | length_error
  deriving DecidableEq, Repr

/-- An input stream: `read_some` stores bytes at the front of a span of a given size. -/
structure InputStreamDevice (σ : Type u) where
  read_some : σ → Nat → Completion (List UInt8) × σ
  length_le : ∀ s n bytes, (read_some s n).1 = .value bytes → bytes.length ≤ n

/-- The requirements on a dynamic buffer. `fill` stores bytes at the front of the span that
`prepare` returned, and `prepare` may throw. -/
class DynamicBuffer (β : Type u) where
  size : β → Nat
  capacity : β → Nat
  max_size : β → Nat
  data : β → List UInt8
  prepare : β → Nat → Option β
  fill : β → List UInt8 → β
  commit : β → Nat → β

/-- What `prepare` and `commit` are for, of the buffers that can be reached. -/
class LawfulDynamicBuffer (β : Type u) [DynamicBuffer β] where
  Ok : β → Prop
  size_eq : Ok b → DynamicBuffer.size b = (DynamicBuffer.data b).length
  size_le : Ok b → DynamicBuffer.size b ≤ DynamicBuffer.max_size b
  prepared : Ok b → DynamicBuffer.size b + n ≤ DynamicBuffer.max_size b →
    DynamicBuffer.prepare b n = some b' → DynamicBuffer.data b' = DynamicBuffer.data b
  committed : Ok b → DynamicBuffer.size b + n ≤ DynamicBuffer.max_size b →
    DynamicBuffer.prepare b n = some b' → bytes.length ≤ n →
    Ok (DynamicBuffer.commit (DynamicBuffer.fill b' bytes) bytes.length) ∧
      DynamicBuffer.data (DynamicBuffer.commit (DynamicBuffer.fill b' bytes) bytes.length) =
        DynamicBuffer.data b ++ bytes ∧
      DynamicBuffer.max_size (DynamicBuffer.commit (DynamicBuffer.fill b' bytes) bytes.length) =
        DynamicBuffer.max_size b

/-- A dynamic buffer whose memory does not run out. -/
class UnfailingBuffer (β : Type u) [DynamicBuffer β] extends LawfulDynamicBuffer β where
  prepare_some : Ok b → DynamicBuffer.size b + n ≤ DynamicBuffer.max_size b →
    ∃ b', DynamicBuffer.prepare b n = some b'

/-- A flat buffer with the memory of its own. -/
structure FlatMemory where
  heap : FlatBuffer.Memory Unit := Heap.empty
  buffer : FlatBuffer.Buffer Unit := { alloc_ := () }

/-- A block at an address that is not in use. -/
def FlatMemory.answer (m : FlatMemory) : FlatBuffer.Answer :=
  .block (m.buffer.data_.elim 0 (· + 1)) fun _ => 0

/-- The buffer is valid and its memory holds nothing else. -/
structure FlatMemory.Ok (m : FlatMemory) : Prop where
  valid : FlatBuffer.Valid m.heap m.buffer
  within : FlatBuffer.Within m.buffer
  alone : ∀ q, m.buffer.data_ ≠ some q → m.heap q = none

theorem FlatMemory.Ok.fits {m : FlatMemory} (h : m.Ok) : m.answer.Fits m.heap := by
  refine h.alone _ ?_
  cases m.buffer.data_ with
  | none => simp
  | some p => simp

theorem FlatMemory.Ok.of_safe {m : FlatMemory} (h : m.Ok) (hs : FlatBuffer.Safe m.heap m.buffer r) :
    FlatMemory.Ok ⟨r.heap, r.buffer⟩ where
  valid := hs.valid
  within := hs.within
  alone q hq := by
    by_cases hb : m.buffer.data_ = some q
    · exact hs.freed q hb hq
    · exact (hs.frame q hb hq).trans (h.alone q hb)

instance : DynamicBuffer FlatMemory where
  size m := m.buffer.size
  capacity m := m.buffer.end_
  max_size m := m.buffer.max_
  data m := FlatBuffer.readable m.heap m.buffer
  prepare m n := (FlatBuffer.prepare m.answer n m.heap m.buffer).bind fun r =>
    if r.thrown = none then some ⟨r.heap, r.buffer⟩ else none
  fill m bytes := (FlatBuffer.write 0 bytes m.heap m.buffer).elim m fun r => ⟨r.heap, r.buffer⟩
  commit m n := { m with buffer := FlatBuffer.commit n m.buffer }

/-- Bytes stored through a prepared span and committed are appended to the readable ones. -/
theorem FlatMemory.Ok.fill_commit {m : FlatMemory} (h : m.Ok)
    (hl : bytes.length ≤ (FlatBuffer.window m.heap m.buffer).length) :
    let m' := DynamicBuffer.commit (DynamicBuffer.fill m bytes) bytes.length
    m'.Ok ∧ DynamicBuffer.data m' = DynamicBuffer.data m ++ bytes ∧
      DynamicBuffer.max_size m' = DynamicBuffer.max_size m := by
  have hlen := h.valid.length_window
  by_cases hd : m.buffer.data_ = none
  · have hend := h.valid.null.1 hd
    have hlast := h.valid.last_le
    have hnil : bytes = [] := List.length_eq_zero_iff.1 (by omega)
    have hfill : DynamicBuffer.fill m bytes = m := by
      simp only [DynamicBuffer.fill, FlatBuffer.write, hd, Option.bind_none, Option.elim_none]
    rw [hfill, hnil]
    obtain ⟨hs, hread, _⟩ := FlatBuffer.commit_spec (n := 0) h.valid h.within
    refine ⟨h.of_safe hs, ?_, rfl⟩
    rw [List.take_zero] at hread
    exact hread
  · obtain ⟨r, hr, _, hb, hs, hread, hwin⟩ :=
      FlatBuffer.write_spec h.valid h.within hd
        (show 0 + bytes.length ≤ m.buffer.last_ - m.buffer.out_ by omega)
    have hfill : DynamicBuffer.fill m bytes = ⟨r.heap, r.buffer⟩ := by
      simp only [DynamicBuffer.fill, hr, Option.elim_some]
    have hok := h.of_safe hs
    rw [hfill]
    obtain ⟨hs', hread', _⟩ := FlatBuffer.commit_spec (n := bytes.length) hok.valid hok.within
    refine ⟨hok.of_safe hs', ?_, ?_⟩
    · refine hread'.trans ?_
      simp only [hb, hread, hwin, Heap.take_splice_zero]
      rfl
    · show r.buffer.max_ = m.buffer.max_
      rw [hb]

theorem FlatMemory.Ok.prepare_spec {m : FlatMemory} (h : m.Ok)
    (hle : m.buffer.size + n ≤ m.buffer.max_) :
    ∃ m', DynamicBuffer.prepare m n = some m' ∧ m'.Ok ∧
      DynamicBuffer.data m' = DynamicBuffer.data m ∧
      DynamicBuffer.max_size m' = DynamicBuffer.max_size m ∧
      n ≤ (FlatBuffer.window m'.heap m'.buffer).length := by
  obtain ⟨r, hr, hs, hsame, hblame⟩ :=
    FlatBuffer.prepare_spec (n := n) h.valid h.within h.fits
  have hn : r.thrown = none := by
    cases he : r.thrown with
    | none => rfl
    | some e =>
      rw [he] at hblame
      cases e with
      | length_error => exact absurd hle (Nat.not_le.2 hblame)
      | bad_alloc => cases hblame
  have hok := h.of_safe (hs fun _ => hle).1
  have hprep : DynamicBuffer.prepare m n = some ⟨r.heap, r.buffer⟩ := by
    simp only [DynamicBuffer.prepare, hr, Option.bind_some, if_pos hn]
  refine ⟨_, hprep, hok, ?_⟩
  by_cases h₀ : n = 0
  · obtain ⟨hh, hb⟩ := hsame (.inr h₀)
    rw [hh, hb, h₀]
    exact ⟨rfl, rfl, Nat.zero_le _⟩
  · have hp := (hs fun _ => hle).2 hn h₀
    exact ⟨hp.readable, hp.max_size, Nat.le_of_eq hp.length.symm⟩

instance : UnfailingBuffer FlatMemory where
  Ok := FlatMemory.Ok
  size_eq h := h.valid.length_readable_eq_size.symm
  size_le h := h.valid.size_le_max h.within
  prepared h hle hp := by
    obtain ⟨m', hm, _, hdata, _, _⟩ := h.prepare_spec hle
    rw [hp, Option.some.injEq] at hm
    exact hm ▸ hdata
  committed h hle hp hl := by
    obtain ⟨m', hm, hok, hdata, hmax, hwin⟩ := h.prepare_spec hle
    rw [hp, Option.some.injEq] at hm
    subst hm
    obtain ⟨hok', hdata', hmax'⟩ := hok.fill_commit (Nat.le_trans hl hwin)
    exact ⟨hok', hdata'.trans (by rw [hdata]), hmax'.trans hmax⟩
  prepare_some h hle := by
    obtain ⟨m', hm, _⟩ := h.prepare_spec hle
    exact ⟨m', hm⟩

end Coio.Io
