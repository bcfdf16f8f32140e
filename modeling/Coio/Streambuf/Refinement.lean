import Coio.Streambuf.Model
import Mathlib.Data.List.TakeDrop

namespace Coio.Streambuf
set_option autoImplicit true

/-- The purpose of a buffer: bytes to read, and after them bytes that can be committed. -/
structure Queue where
  readable : List UInt8
  window : List UInt8

/-- The effect of an operation that does not throw, with the character that it reads. What the bytes
of a new window are is left open. -/
inductive Queue.Step : Op → Option UInt8 → Queue → Queue → Prop
  | prepare : n ≤ W.length → Step (.prepare n room) none q ⟨q.readable, W⟩
  | write : k + bytes.length ≤ q.window.length → Step (.write k bytes) none q
      ⟨q.readable, Heap.splice q.window k bytes⟩
  | commit : Step (.commit n) none q ⟨q.readable ++ q.window.take n, q.window.drop n⟩
  | consume : Step (.consume n) none q ⟨q.readable.drop n, q.window⟩
  | sputc : W = q.window.drop 1 ∨ q.window = [] →
      Step (.sputc c room) none q ⟨q.readable ++ [c], W⟩
  | sgetc : Step .sgetc q.readable.head? q q
  | sbumpc : Step .sbumpc q.readable.head? q ⟨q.readable.tail, q.window⟩

def queue (s : Buffer) : Queue := ⟨s.data, (s.buffer_.drop s.pptr).take (s.epptr - s.pptr)⟩

/-- The order of the pointers; the space for characters is within `max_size()`. -/
structure Valid (s : Buffer) : Prop where
  get_end : s.gptr ≤ s.egptr
  end_put : s.egptr ≤ s.pptr
  put_end : s.pptr ≤ s.epptr
  end_length : s.epptr ≤ s.buffer_.length
  end_max : s.epptr ≤ s.max_size_
  max_lt : s.max_size_ < Word.modulus

section Valid

variable {s : Buffer}

theorem valid_construct (h : max_size < Word.modulus) : Valid (construct max_size) where
  get_end := Nat.zero_le _
  end_put := Nat.zero_le _
  put_end := Nat.zero_le _
  end_length := (List.length_replicate ..).symm ▸ Nat.le_max_left ..
  end_max := Nat.min_le_left ..
  max_lt := h

theorem growth_pos (s : Buffer) : 0 < s.growth := by
  rw [Buffer.growth]
  split
  · rename_i h
    rw [Word.sub_of_le (Nat.le_of_lt h.1)]
    omega
  · decide

theorem Valid.get_put (v : Valid s) : s.gptr ≤ s.pptr := Nat.le_trans v.get_end v.end_put

theorem Valid.size_eq (v : Valid s) : s.size = s.pptr - s.gptr := Word.sub_of_le v.get_put

theorem Valid.length_data (v : Valid s) : s.data.length = s.size := by
  have h₁ := v.put_end
  have h₂ := v.end_length
  rw [Buffer.data, List.length_take, List.length_drop, v.size_eq]
  omega

theorem Valid.size_le_max (v : Valid s) : s.size ≤ s.max_size_ := by
  have h₁ := v.put_end
  have h₂ := v.end_max
  rw [v.size_eq]
  omega

theorem Valid.length_window (v : Valid s) : (queue s).window.length = s.epptr - s.pptr := by
  have h := v.end_length
  rw [queue, List.length_take, List.length_drop]
  omega

theorem int_of_lt (h : n < 2 ^ 31) : int n = n := by
  rw [int, Nat.mod_eq_of_lt (by omega), if_pos h]

theorem bump_of_le (h : p + n ≤ len) (hn : n < 2 ^ 31) : bump len p (int n) = some (p + n) := by
  rw [int_of_lt hn, bump, if_pos (by omega)]
  congr 1

/-- The readable bytes come to the front. -/
theorem compact_spec (v : Valid s) : ∃ bytes,
    (if 0 < s.gptr then
        (memmove s.buffer_ s.gptr (Word.sub s.pptr s.gptr)).map fun bytes =>
          (bytes, Word.sub s.pptr s.gptr)
      else some (s.buffer_, s.pptr)) = some (bytes, s.size) ∧
      bytes.length = s.buffer_.length ∧ bytes.take s.size = s.data ∧
      bytes.drop s.size = s.buffer_.drop s.size := by
  have hput := v.get_put
  have hend := Nat.le_trans v.put_end v.end_length
  have hsize := v.size_eq
  split
  · have hle : s.gptr + Word.sub s.pptr s.gptr ≤ s.buffer_.length := by
      rw [← Buffer.size, hsize]
      omega
    have hdata := v.length_data
    have hsplice : 0 + s.data.length ≤ s.buffer_.length := by omega
    refine ⟨Heap.splice s.buffer_ 0 s.data, ?_, Heap.length_splice hsplice, ?_, ?_⟩
    · rw [memmove, if_pos hle]
      rfl
    · rw [← hdata, Heap.take_splice_zero]
    · exact Heap.drop_splice hsplice (by omega)
  · rename_i h0
    have hg : s.gptr = 0 := Nat.eq_zero_of_not_pos h0
    have hs : s.size = s.pptr := by omega
    refine ⟨s.buffer_, by rw [hs], rfl, ?_, rfl⟩
    rw [Buffer.data, hg, List.drop_zero]

/-- The pointers are set to bytes that begin with the readable ones. -/
def seat (s : Buffer) (bytes : List UInt8) (pnext pend : Nat) : Buffer :=
  { s with buffer_ := bytes, gptr := 0, egptr := pnext, pptr := pnext, epptr := pend }

theorem Valid.seat (v : Valid s) (hle : s.size ≤ pend) (hlen : pend ≤ bytes.length)
    (hmax : pend ≤ s.max_size_) : Valid (seat s bytes s.size pend) :=
  ⟨Nat.zero_le _, Nat.le_refl _, hle, hlen, hmax, v.max_lt⟩

theorem data_seat (htake : bytes.take s.size = s.data) :
    (seat s bytes s.size pend).data = s.data := by
  rw [← htake, Buffer.data, Buffer.size]
  simp [seat, Word.sub_of_le]

/-- The outcome of `reserve`: it makes room and keeps the readable bytes, or it throws. -/
structure Reserved (s : Buffer) (n : Nat) (r : Result) : Prop where
  valid : r.thrown = none → Valid r.buf
  data : r.thrown = none → r.buf.data = s.data
  room : r.thrown = none → n ≤ r.buf.epptr - r.buf.pptr
  max : r.buf.max_size_ = s.max_size_
  read : r.read = none
  throws : s.size + n < 2 ^ 63 → (r.thrown = some .length_error ↔ s.max_size_ < s.size + n)

theorem reserve_spec (v : Valid s) (room : Bool) (n : Nat) :
    ∃ r, reserve room n s = some r ∧ Reserved s n r := by
  have hput := v.get_put
  have hend := v.put_end
  have hlength := v.end_length
  have hmax := v.end_max
  have hlt := v.max_lt
  have hsize := v.size_eq
  rw [reserve, Word.sub_of_le hend]
  by_cases hfits : n ≤ s.epptr - s.pptr
  · rw [if_pos hfits]
    refine ⟨_, rfl, fun _ => v, fun _ => rfl, fun _ => hfits, rfl, rfl, fun _ => ?_⟩
    exact iff_of_false nofun (by omega)
  obtain ⟨bytes, hcompact, hlen, htake, -⟩ := compact_spec v
  have hsub : Word.sub s.epptr s.size = s.epptr - s.size := Word.sub_of_le (by omega)
  simp only [if_neg hfits]
  rw [hcompact, Option.map_some, hsub]
  refine ⟨_, rfl, ?_⟩
  by_cases hgrow : s.epptr - s.size < n
  · rw [if_pos hgrow]
    by_cases hroom : n ≤ s.max_size_ ∧ s.size ≤ Word.sub s.max_size_ n
    · have hle : s.size + n ≤ s.max_size_ := by
        have := hroom.2
        rw [Word.sub_of_le hroom.1] at this
        omega
      rw [if_pos hroom, Word.add_of_lt (by omega), resize]
      by_cases hhuge : 2 ^ 63 ≤ max (s.size + n) 1
      · rw [if_pos hhuge]
        exact ⟨nofun, nofun, nofun, rfl, rfl, fun h => by omega⟩
      · rw [if_neg hhuge]
        cases room with
        | false => exact ⟨nofun, nofun, nofun, rfl, rfl, fun _ => iff_of_false nofun (by omega)⟩
        | true =>
          have hlen' : s.size + n ≤ (bytes.take (max (s.size + n) 1) ++
              List.replicate (max (s.size + n) 1 - bytes.length) 0).length := by
            simp only [List.length_append, List.length_take, List.length_replicate]
            omega
          have htake' : (bytes.take (max (s.size + n) 1) ++
              List.replicate (max (s.size + n) 1 - bytes.length) 0).take s.size = s.data := by
            rw [List.take_append_of_le_length (by rw [List.length_take]; omega), List.take_take,
              Nat.min_eq_left (by omega), htake]
          refine ⟨fun _ => v.seat (Nat.le_add_right ..) hlen' hle, fun _ => data_seat htake',
            fun _ => ?_, rfl, rfl, fun _ => iff_of_false nofun (by omega)⟩
          exact Nat.le_of_eq (Nat.add_sub_cancel_left ..).symm
    · rw [if_neg hroom]
      refine ⟨nofun, nofun, nofun, rfl, rfl, fun _ => iff_of_true rfl ?_⟩
      by_contra hle
      refine hroom ⟨by omega, ?_⟩
      rw [Word.sub_of_le (by omega)]
      omega
  · rw [if_neg hgrow]
    refine ⟨fun _ => v.seat (by omega) (hlen ▸ hlength) hmax, fun _ => data_seat htake,
      fun _ => Nat.le_of_not_lt hgrow, rfl, rfl, fun _ => iff_of_false nofun (by omega)⟩

/-- The program passes sizes that an `int` can hold and writes into the span that it has got. -/
def Op.Admits (s : Buffer) : Op → Prop
  | .write k bytes => k + bytes.length ≤ s.epptr - s.pptr
  | .commit n | .consume n => n < 2 ^ 31
  | _ => True

/-- What an operation on a valid buffer does, unless it throws. -/
structure Lands (op : Op) (s : Buffer) (r : Result) : Prop where
  valid : Valid r.buf
  max : r.buf.max_size_ = s.max_size_
  step : Queue.Step op r.read (queue s) (queue r.buf)

theorem queue_eq (v : Valid s) : queue s = ⟨(s.buffer_.drop s.gptr).take (s.pptr - s.gptr),
    (s.buffer_.drop s.pptr).take (s.epptr - s.pptr)⟩ := by
  rw [queue, Buffer.data, v.size_eq]

/-- The bytes from `p` to `e` without the first `n`. -/
theorem part_drop (bytes : List UInt8) (p e n : Nat) :
    (bytes.drop (p + min n (e - p))).take (e - (p + min n (e - p))) =
      ((bytes.drop p).take (e - p)).drop n := by
  rw [List.drop_take, List.drop_drop]
  rcases Nat.le_total n (e - p) with h | h
  · rw [Nat.min_eq_left h, Nat.sub_add_eq]
  · rw [Nat.min_eq_right h, Nat.sub_eq_zero_of_le h, show e - (p + (e - p)) = 0 by omega,
      List.take_zero, List.take_zero]

theorem commit_lands (v : Valid s) (hn : n < 2 ^ 31) :
    ∃ r, commit n s = some r ∧ Lands (.commit n) s r := by
  have hget := v.get_put
  have hput := v.put_end
  have hend := v.end_length
  have hbump : bump s.buffer_.length s.pptr (int (min n (s.epptr - s.pptr))) =
      some (s.pptr + min n (s.epptr - s.pptr)) := bump_of_le (by omega) (by omega)
  rw [commit, Word.sub_of_le hput, hbump]
  have v' : Valid { s with pptr := s.pptr + min n (s.epptr - s.pptr),
                           egptr := s.pptr + min n (s.epptr - s.pptr) } :=
    ⟨by simp only; omega, Nat.le_refl _, by simp only; omega, hend, v.end_max, v.max_lt⟩
  refine ⟨_, rfl, v', rfl, ?_⟩
  have hreadable : (s.buffer_.drop s.gptr).take (s.pptr + min n (s.epptr - s.pptr) - s.gptr) =
      (s.buffer_.drop s.gptr).take (s.pptr - s.gptr) ++
        ((s.buffer_.drop s.pptr).take (s.epptr - s.pptr)).take n := by
    rw [show s.pptr + min n (s.epptr - s.pptr) - s.gptr =
      s.pptr - s.gptr + min n (s.epptr - s.pptr) by omega, List.take_add, List.drop_drop,
      Nat.add_sub_cancel' hget, List.take_take]
  rw [queue_eq v, queue_eq v']
  simp only [hreadable, part_drop]
  exact .commit

theorem egptr_eq (s : Buffer) : (if s.egptr < s.pptr then { s with egptr := s.pptr } else s) =
    { s with egptr := max s.egptr s.pptr } := by
  split
  · rw [Nat.max_eq_right (by omega)]
  · rw [Nat.max_eq_left (by omega)]

theorem consume_lands (v : Valid s) (hn : n < 2 ^ 31) :
    ∃ r, consume n s = some r ∧ Lands (.consume n) s r := by
  have hget := v.get_put
  have hput := v.put_end
  have hend := v.end_length
  have hmin : (if s.pptr < s.gptr + n then s.pptr - s.gptr else n) = min n (s.pptr - s.gptr) := by
    split <;> omega
  have hbump : bump s.buffer_.length s.gptr (int (min n (s.pptr - s.gptr))) =
      some (s.gptr + min n (s.pptr - s.gptr)) := bump_of_le (by omega) (by omega)
  rw [consume, egptr_eq, Nat.max_eq_right v.end_put]
  simp only [if_neg (show ¬ 2 ^ 63 ≤ n by omega), Word.sub_of_le hget, hmin, hbump]
  have v' : Valid { s with egptr := s.pptr, gptr := s.gptr + min n (s.pptr - s.gptr) } :=
    ⟨by simp only; omega, Nat.le_refl _, hput, hend, v.end_max, v.max_lt⟩
  refine ⟨_, rfl, v', rfl, ?_⟩
  rw [queue_eq v, queue_eq v']
  simp only [part_drop]
  exact .consume

theorem write_lands (v : Valid s) (hk : k + bytes.length ≤ s.epptr - s.pptr) :
    ∃ r, write k bytes s = some r ∧ Lands (.write k bytes) s r := by
  have hget := v.get_put
  have hput := v.put_end
  have hend := v.end_length
  rw [write, if_pos (by omega)]
  have hfits : s.pptr + k + bytes.length ≤ s.buffer_.length := by omega
  have v' : Valid { s with buffer_ := Heap.splice s.buffer_ (s.pptr + k) bytes } :=
    ⟨v.get_end, v.end_put, hput, by rw [Heap.length_splice hfits]; exact hend, v.end_max, v.max_lt⟩
  refine ⟨_, rfl, v', rfl, ?_⟩
  rw [queue_eq v, queue_eq v']
  simp only [Heap.take_drop_splice hfits (show s.gptr + (s.pptr - s.gptr) ≤ s.pptr + k by omega),
    Heap.take_drop_splice_inside hfits hk (show s.pptr + (s.epptr - s.pptr) ≤ _ by omega)]
  apply Queue.Step.write
  rw [← queue_eq v, v.length_window]
  exact hk

theorem put_lands (v : Valid s) (h : s.pptr < s.epptr) (c : UInt8) :
    ∃ r, put c s = some r ∧ r.thrown = none ∧ Valid r.buf ∧ r.buf.max_size_ = s.max_size_ ∧
      r.read = none ∧
      queue r.buf = ⟨(queue s).readable ++ [c], (queue s).window.drop 1⟩ := by
  have hget := v.get_put
  have hend := v.end_length
  have hfits : s.pptr + [c].length ≤ s.buffer_.length := by
    rw [List.length_singleton]
    omega
  have v' : Valid { s with buffer_ := Heap.splice s.buffer_ s.pptr [c], pptr := s.pptr + 1 } :=
    ⟨v.get_end, Nat.le_succ_of_le v.end_put, h, by rw [Heap.length_splice hfits]; exact hend,
      v.end_max, v.max_lt⟩
  rw [put, if_pos (by omega)]
  refine ⟨_, rfl, rfl, v', rfl, rfl, ?_⟩
  have hlast : ((Heap.splice s.buffer_ s.pptr [c]).drop s.pptr).take 1 = [c] := by
    have hin : ((Heap.splice s.buffer_ (s.pptr + 0) [c]).drop s.pptr).take 1 =
        Heap.splice ((s.buffer_.drop s.pptr).take 1) 0 [c] :=
      Heap.take_drop_splice_inside hfits (by simp) (by omega)
    rw [Nat.add_zero] at hin
    rw [hin, Heap.splice]
    simp
  rw [queue_eq v, queue_eq v']
  simp only [Nat.succ_sub hget, ← Nat.add_one, List.take_add, List.drop_drop,
    Nat.add_sub_cancel' hget, hlast,
    Heap.take_drop_splice hfits (show s.gptr + (s.pptr - s.gptr) ≤ s.pptr by omega),
    Heap.drop_splice hfits (show s.pptr + [c].length ≤ s.pptr + 1 from Nat.le_refl _),
    List.drop_take, Nat.sub_add_eq]

/-- A character that is put comes behind the others. -/
theorem sputc_lands (v : Valid s) (room : Bool) (c : UInt8) : ∃ r, sputc room c s = some r ∧
    (r.thrown = none → Lands (.sputc c room) s r) := by
  have hwindow := v.length_window
  rw [sputc]
  by_cases hlt : s.pptr < s.epptr
  · obtain ⟨r, hr, -, hv, hmax, hread, hq⟩ := put_lands v hlt c
    rw [if_pos hlt]
    refine ⟨r, hr, fun _ => ⟨hv, hmax, ?_⟩⟩
    rw [hread, hq]
    exact .sputc (.inl rfl)
  · have heq : s.pptr = s.epptr := Nat.le_antisymm v.put_end (Nat.le_of_not_lt hlt)
    have hempty : (queue s).window = [] := List.length_eq_zero_iff.1 (by omega)
    rw [if_neg hlt, overflow]
    simp only [if_pos heq]
    obtain ⟨r, hr, hres⟩ := reserve_spec v room s.growth
    have hpos := growth_pos s
    rw [hr, Option.bind_some]
    cases ht : r.thrown with
    | some e => exact ⟨r, rfl, fun h => by rw [ht] at h; cases h⟩
    | none =>
      have hroom := hres.room ht
      obtain ⟨r', hr', -, hv, hmax, hread, hq⟩ := put_lands (hres.valid ht) (by omega) c
      refine ⟨r', hr', fun _ => ⟨hv, hmax.trans hres.max, ?_⟩⟩
      have hdata : (queue r.buf).readable = (queue s).readable := hres.data ht
      rw [hread, hq, hdata]
      exact .sputc (.inr hempty)

theorem sgetc_lands (v : Valid s) : ∃ r, sgetc s = some r ∧ r.thrown = none ∧ Valid r.buf ∧
    r.buf.max_size_ = s.max_size_ ∧ r.read = (queue s).readable.head? ∧ queue r.buf = queue s ∧
    (r.read ≠ none → r.buf.gptr < r.buf.egptr) := by
  have hget := v.get_put
  have hput := v.put_end
  have hend := v.end_length
  have hhead : (queue s).readable.head? =
      if s.gptr < s.pptr then s.buffer_[s.gptr]? else none := by
    rw [queue_eq v, List.head?_take, List.head?_drop]
    split <;> split <;> first | rfl | omega
  have hchar : s.gptr < s.pptr → ∃ c, s.buffer_[s.gptr]? = some c :=
    fun hlt => ⟨_, List.getElem?_eq_getElem (by omega)⟩
  rw [sgetc, hhead]
  by_cases hfast : s.gptr < s.egptr
  · have hlt : s.gptr < s.pptr := Nat.lt_of_lt_of_le hfast v.end_put
    obtain ⟨c, hc⟩ := hchar hlt
    rw [if_pos hfast, if_pos hlt, hc]
    exact ⟨_, rfl, rfl, v, rfl, rfl, rfl, fun _ => hfast⟩
  · rw [if_neg hfast, underflow]
    by_cases hlt : s.gptr < s.pptr
    · obtain ⟨c, hc⟩ := hchar hlt
      have v' : Valid { s with egptr := s.pptr } :=
        ⟨hget, Nat.le_refl _, hput, hend, v.end_max, v.max_lt⟩
      rw [if_pos hlt, if_pos hlt, hc]
      exact ⟨_, rfl, rfl, v', rfl, rfl, rfl, fun _ => hlt⟩
    · rw [if_neg hlt, if_neg hlt]
      exact ⟨_, rfl, rfl, v, rfl, rfl, rfl, fun h => absurd rfl h⟩

/-- A character that is taken was the first. -/
theorem sbumpc_lands (v : Valid s) :
    ∃ r, sbumpc s = some r ∧ r.thrown = none ∧ Lands .sbumpc s r := by
  obtain ⟨r, hr, ht, hv, hmax, hread, hq, hget⟩ := sgetc_lands v
  rw [sbumpc, hr, Option.map_some]
  cases hc : r.read with
  | none =>
    have hnil : (queue s).readable = [] := List.head?_eq_none_iff.1 (hread.symm.trans hc)
    refine ⟨r, rfl, ht, hv, hmax, ?_⟩
    rw [hq, hc]
    generalize queue s = q at hnil
    obtain ⟨readable, window⟩ := q
    cases hnil
    exact Queue.Step.sbumpc (q := ⟨[], window⟩)
  | some c =>
    have hlt := hget (by simp [hc])
    have v' : Valid { r.buf with gptr := r.buf.gptr + 1 } :=
      ⟨hlt, hv.end_put, hv.put_end, hv.end_length, hv.end_max, hv.max_lt⟩
    refine ⟨_, rfl, ht, v', hmax, ?_⟩
    have htail : queue { r.buf with gptr := r.buf.gptr + 1 } =
        ⟨(queue s).readable.tail, (queue s).window⟩ := by
      rw [← hq, queue_eq hv, queue_eq v']
      simp only [← List.drop_one, List.drop_take, List.drop_drop, Nat.sub_add_eq]
    show Queue.Step _ (some c) _ _
    rw [htail, ← hc, hread]
    exact .sbumpc

/-- Every admissible operation is defined on a valid buffer and has its effect if it does not
throw. -/
theorem Valid.lands (v : Valid s) (op : Op) (ha : op.Admits s) :
    ∃ r, op.call s = some r ∧ (r.thrown = none → Lands op s r) := by
  cases op with
  | prepare n room =>
    obtain ⟨r, hr, hres⟩ := reserve_spec v room n
    refine ⟨r, hr, fun ht => ⟨hres.valid ht, hres.max, ?_⟩⟩
    have hdata : (queue r.buf).readable = (queue s).readable := hres.data ht
    have hroom := hres.room ht
    have hlen := (hres.valid ht).length_window
    rw [hres.read, show queue r.buf = ⟨(queue s).readable, (queue r.buf).window⟩ by rw [← hdata]]
    exact .prepare (by omega)
  | write k bytes =>
    obtain ⟨r, hr, hl⟩ := write_lands v ha
    exact ⟨r, hr, fun _ => hl⟩
  | commit n =>
    obtain ⟨r, hr, hl⟩ := commit_lands v ha
    exact ⟨r, hr, fun _ => hl⟩
  | consume n =>
    obtain ⟨r, hr, hl⟩ := consume_lands v ha
    exact ⟨r, hr, fun _ => hl⟩
  | sputc c room => exact sputc_lands v room c
  | sgetc =>
    obtain ⟨r, hr, -, hv, hmax, hread, hq, -⟩ := sgetc_lands v
    refine ⟨r, hr, fun _ => ⟨hv, hmax, ?_⟩⟩
    rw [hread, hq]
    exact .sgetc
  | sbumpc =>
    obtain ⟨r, hr, -, hl⟩ := sbumpc_lands v
    exact ⟨r, hr, fun _ => hl⟩

end Valid

/-- What happens to the bytes over a sequence of operations and the characters that they read. -/
inductive Queue.Run : List (Op × Option UInt8) → Queue → Queue → Prop
  | nil : Run [] q q
  | snoc : Run tr p q → Queue.Step op c q q' → Run (tr ++ [(op, c)]) p q'

/-- The states that operations reach which do not throw. -/
inductive Run (max_size : Nat) : List (Op × Option UInt8) → Buffer → Prop
  | init : Run max_size [] (construct max_size)
  | step : Run max_size tr s → op.Admits s → op.call s = some r → r.thrown = none →
      Run max_size (tr ++ [(op, r.read)]) r.buf

theorem Run.refines (hm : max_size < 2 ^ 64) (h : Run max_size tr s) :
    Valid s ∧ s.max_size_ = max_size ∧
      ∃ window, Queue.Run tr ⟨[], window⟩ (queue s) := by
  induction h with
  | init =>
    have hdata : (construct max_size).data = [] := by simp [construct, Buffer.data, Buffer.size,
      Word.sub]
    refine ⟨valid_construct hm, rfl, (queue (construct max_size)).window, ?_⟩
    rw [show queue (construct max_size) = ⟨[], (queue (construct max_size)).window⟩ by
      rw [← hdata]
      rfl]
    exact .nil
  | @step tr s r op _ ha hr ht ih =>
    obtain ⟨v, hmax, window, hrun⟩ := ih
    obtain ⟨r', hr', hl⟩ := v.lands op ha
    obtain rfl := Option.some.inj (hr.symm.trans hr')
    obtain ⟨v', hmax', hstep⟩ := hl ht
    exact ⟨v', hmax'.trans hmax, window, hrun.snoc hstep⟩

/-- The readable bytes are those that were committed or put and have not been consumed or taken, in
order, and the limit is checked as it should be. -/
theorem streambuf_fifo (hm : max_size < 2 ^ 64) (h : Run max_size tr s) :
    (∃ window window', Queue.Run tr ⟨[], window⟩ ⟨s.data, window'⟩) ∧
    s.size = s.data.length ∧ s.size ≤ max_size ∧
    ∀ n room, s.size < 2 ^ 31 → n < 2 ^ 31 → ∃ r, prepare room n s = some r ∧
      (r.thrown = some .length_error ↔ max_size < s.size + n) := by
  obtain ⟨v, rfl, window, hrun⟩ := h.refines hm
  refine ⟨⟨window, (queue s).window, hrun⟩, v.length_data.symm, v.size_le_max, ?_⟩
  intro n room hs hn
  obtain ⟨r, hr, hres⟩ := reserve_spec v room n
  exact ⟨r, hr, hres.throws (by omega)⟩

/-- Two characters are written and committed, one more is put and the first one is taken. -/
def sampleRun : List (Op × Option UInt8) :=
  [(.prepare 3 true, none), (.write 0 [7, 8], none), (.commit 2, none), (.sputc 9 true, none),
    (.sbumpc, some 7)]

theorem streambuf_fifo_sample : ∃ s, Run 4 sampleRun s ∧ s.data = [8, 9] ∧ s.size = 2 ∧
    ∃ window window', Queue.Run sampleRun ⟨[], window⟩ ⟨[8, 9], window'⟩ := by
  have h₁ := (Run.init : Run 4 [] _).step (show Op.Admits _ (.prepare 3 true) from trivial) rfl rfl
  have h₂ := h₁.step (show Op.Admits _ (.write 0 [7, 8]) from (by decide : _ ≤ _)) rfl rfl
  have h₃ := h₂.step (show Op.Admits _ (.commit 2) from (by decide : _ < _)) rfl rfl
  have h₄ := h₃.step (show Op.Admits _ (.sputc 9 true) from trivial) rfl rfl
  have h₅ := h₄.step (show Op.Admits _ .sbumpc from trivial) rfl rfl
  obtain ⟨hrun, hsize, -⟩ := streambuf_fifo (by decide) h₅
  exact ⟨_, h₅, rfl, hsize, hrun⟩

end Coio.Streambuf
