import Coio.Streambuf.Refinement

namespace Coio.Streambuf
set_option autoImplicit true

/-- The states that any operations reach, also those that have thrown. -/
inductive Reached (max_size : Nat) : Buffer → Prop
  | init : Reached max_size (construct max_size)
  | call (op : Op) (r : Result) : Reached max_size s → op.call s = some r →
      Reached max_size r.buf

/-- The pointers point into the buffer, whatever has been passed as a size. -/
structure Bounded (s : Buffer) : Prop where
  get : s.gptr ≤ s.buffer_.length
  seen : s.egptr ≤ s.pptr
  put : s.pptr ≤ s.epptr
  fits : s.epptr ≤ s.buffer_.length
  length : s.buffer_.length < 2 ^ 63
  max_lt : s.max_size_ < Word.modulus

section Bounded

variable {s : Buffer}

theorem bounded_construct (h : max_size < Word.modulus) : Bounded (construct max_size) where
  get := Nat.zero_le _
  seen := Nat.zero_le _
  put := Nat.zero_le _
  fits := (valid_construct h).end_length
  length := by
    simp only [construct, buffer_delta, List.length_replicate]
    omega
  max_lt := h

theorem bump_le (h : bump len p d = some q) : q ≤ len ∧ (q : Int) = p + d := by
  rw [bump, Option.ite_none_right_eq_some] at h
  obtain ⟨⟨h₁, h₂⟩, h⟩ := h
  have := Option.some.inj h
  omega

theorem int_le (n : Nat) : int n ≤ n := by
  have := Nat.mod_le n (2 ^ 32)
  rw [int]
  split <;> omega

/-- What `reserve` has moved when it throws, and what it leaves otherwise. -/
theorem reserve_cases (b : Bounded s) (h : reserve room n s = some r) :
    (r.thrown = none ∧ Bounded r.buf ∧ n ≤ r.buf.epptr - r.buf.pptr) ∨
      r.thrown ≠ none ∧ s.gptr ≤ s.pptr ∧
        (s.gptr = 0 ∧ r.buf = s ∨
          r.buf = { s with buffer_ := Heap.splice s.buffer_ 0 s.data }) := by
  have hput := b.put
  have hfits := b.fits
  have hlength := b.length
  rw [reserve, Word.sub_of_le b.put] at h
  simp only at h
  split at h
  · obtain rfl := Option.some.inj h
    exact .inl ⟨rfl, b, ‹_›⟩
  obtain ⟨⟨bytes, pnext⟩, hc, rfl⟩ := Option.map_eq_some_iff.1 h
  -- the bytes after the move
  obtain ⟨hlen, hle, hget, hmoved⟩ : bytes.length = s.buffer_.length ∧ pnext ≤ s.epptr ∧
      s.gptr ≤ s.pptr ∧ (s.gptr = 0 ∧ bytes = s.buffer_ ∨
        bytes = Heap.splice s.buffer_ 0 s.data) := by
    split at hc
    · obtain ⟨bytes', hm, heq⟩ := Option.map_eq_some_iff.1 hc
      obtain ⟨rfl, rfl⟩ := Prod.mk.inj heq
      rw [memmove, Option.ite_none_right_eq_some] at hm
      obtain ⟨hle, hm⟩ := hm
      have hget : s.gptr ≤ s.pptr := by
        by_contra hlt
        rw [Word.sub, if_neg hlt, Word.modulus] at hle
        omega
      have hsize : s.size = s.pptr - s.gptr := Word.sub_of_le hget
      have hdata : 0 + s.data.length ≤ s.buffer_.length := by
        rw [Buffer.data, List.length_take]
        omega
      obtain rfl := Option.some.inj hm
      refine ⟨Heap.length_splice hdata, ?_, hget, .inr rfl⟩
      rw [Word.sub_of_le hget]
      omega
    · rename_i h0
      obtain ⟨rfl, rfl⟩ := Prod.mk.inj (Option.some.inj hc)
      exact ⟨rfl, hput, by omega, .inl ⟨by omega, rfl⟩⟩
  have hkeep : s.gptr = 0 ∧ { s with buffer_ := bytes } = s ∨ { s with buffer_ := bytes } =
      { s with buffer_ := Heap.splice s.buffer_ 0 s.data } := by
    rcases hmoved with ⟨h0, rfl⟩ | rfl
    · exact .inl ⟨h0, rfl⟩
    · exact .inr rfl
  simp only [Word.sub_of_le hle]
  split
  · split
    · rename_i hroom
      have hadd : Word.add pnext n = pnext + n := by
        have := b.max_lt
        rw [Word.sub_of_le hroom.1] at hroom
        exact Word.add_of_lt (by omega)
      rw [hadd, resize]
      by_cases hhuge : 2 ^ 63 ≤ max (pnext + n) 1
      · rw [if_pos hhuge]
        exact .inr ⟨by rintro ⟨⟩, hget, hkeep⟩
      · rw [if_neg hhuge]
        cases room with
        | false => exact .inr ⟨by rintro ⟨⟩, hget, hkeep⟩
        | true =>
          have hsize : (bytes.take (max (pnext + n) 1) ++
              List.replicate (max (pnext + n) 1 - bytes.length) 0).length = max (pnext + n) 1 := by
            simp only [List.length_append, List.length_take, List.length_replicate]
            omega
          refine .inl ⟨rfl, ⟨Nat.zero_le _, Nat.le_refl _, Nat.le_add_right .., ?_, ?_, b.max_lt⟩,
            ?_⟩
          · show pnext + n ≤ _
            simp only [if_true, hsize]
            omega
          · simp only [if_true, hsize]
            omega
          · exact Nat.le_of_eq (Nat.add_sub_cancel_left ..).symm
    · exact .inr ⟨by rintro ⟨⟩, hget, hkeep⟩
  · refine .inl ⟨rfl, ⟨Nat.zero_le _, Nat.le_refl _, hle, ?_, ?_, b.max_lt⟩, Nat.le_of_not_lt ‹_›⟩
    · rw [hlen]
      exact hfits
    · rw [hlen]
      exact hlength

theorem put_bounded (b : Bounded s) (hlt : s.pptr < s.epptr) (h : put c s = some r) :
    Bounded r.buf ∧ r.thrown = none := by
  have hfits : s.pptr + [c].length ≤ s.buffer_.length := by
    have := b.fits
    rw [List.length_singleton]
    omega
  rw [put, Option.ite_none_right_eq_some] at h
  obtain ⟨-, h⟩ := h
  obtain rfl := Option.some.inj h
  have hlen := Heap.length_splice hfits
  exact ⟨⟨by rw [hlen]; exact b.get, Nat.le_succ_of_le b.seen, hlt, by rw [hlen]; exact b.fits,
    by rw [hlen]; exact b.length, b.max_lt⟩, rfl⟩

theorem sgetc_bounded (b : Bounded s) (h : sgetc s = some r) :
    r.thrown = none ∧ Bounded r.buf ∧ (r.read ≠ none → r.buf.gptr + 1 ≤ r.buf.buffer_.length) := by
  rw [sgetc] at h
  split at h
  · obtain ⟨c, hc, rfl⟩ := Option.map_eq_some_iff.1 h
    exact ⟨rfl, b, fun _ => (List.getElem?_eq_some_iff.1 hc).1⟩
  · rw [underflow] at h
    split at h
    · obtain ⟨c, hc, rfl⟩ := Option.map_eq_some_iff.1 h
      exact ⟨rfl, ⟨b.get, Nat.le_refl _, b.put, b.fits, b.length, b.max_lt⟩,
        fun _ => (List.getElem?_eq_some_iff.1 hc).1⟩
    · obtain rfl := Option.some.inj h
      exact ⟨rfl, b, fun hn => absurd rfl hn⟩

/-- An operation keeps the pointers in the buffer; when it throws it has moved the bytes at most. -/
theorem Bounded.call (b : Bounded s) {op : Op} (h : op.call s = some r) :
    (r.thrown = none ∧ Bounded r.buf) ∨ r.thrown ≠ none ∧ s.gptr ≤ s.pptr ∧
      (s.gptr = 0 ∧ r.buf = s ∨
        r.buf = { s with buffer_ := Heap.splice s.buffer_ 0 s.data }) := by
  cases op with
  | prepare n room => exact (reserve_cases b h).imp (fun h => ⟨h.1, h.2.1⟩) id
  | write k bytes =>
    rw [Op.call, write, Option.ite_none_right_eq_some] at h
    obtain ⟨hle, h⟩ := h
    obtain rfl := Option.some.inj h
    have hlen := Heap.length_splice hle
    exact .inl ⟨rfl, by rw [hlen]; exact b.get, b.seen, b.put, by rw [hlen]; exact b.fits,
      by rw [hlen]; exact b.length, b.max_lt⟩
  | commit n =>
    obtain ⟨pptr, hb, rfl⟩ := Option.map_eq_some_iff.1 h
    obtain ⟨-, hq⟩ := bump_le hb
    have hle := int_le (min n (Word.sub s.epptr s.pptr))
    have hput := b.put
    rw [Word.sub_of_le hput] at hle hq
    exact .inl ⟨rfl, b.get, Nat.le_refl _, by simp only; omega, b.fits, b.length, b.max_lt⟩
  | consume n =>
    rw [Op.call, consume, egptr_eq] at h
    simp only at h
    split at h
    · cases h
    · obtain ⟨gptr, hb, rfl⟩ := Option.map_eq_some_iff.1 h
      exact .inl ⟨rfl, (bump_le hb).1, Nat.max_le.2 ⟨b.seen, Nat.le_refl _⟩, b.put, b.fits,
        b.length, b.max_lt⟩
  | sputc c room =>
    rw [Op.call, sputc] at h
    split at h
    · rename_i hlt
      exact .inl ⟨(put_bounded b hlt h).2, (put_bounded b hlt h).1⟩
    · rename_i hlt
      have hpos := growth_pos s
      rw [overflow, if_pos (Nat.le_antisymm b.put (Nat.le_of_not_lt hlt))] at h
      obtain ⟨r', hr, h⟩ := Option.bind_eq_some_iff.1 h
      rcases reserve_cases b hr with ⟨ht, b', hroom⟩ | hfail
      · rw [ht] at h
        obtain ⟨b'', ht'⟩ := put_bounded b' (by omega) h
        exact .inl ⟨ht', b''⟩
      · obtain ⟨e, he⟩ := Option.ne_none_iff_exists'.1 hfail.1
        rw [he] at h
        obtain rfl := Option.some.inj h
        exact .inr hfail
  | sgetc =>
    obtain ⟨ht, b', -⟩ := sgetc_bounded b h
    exact .inl ⟨ht, b'⟩
  | sbumpc =>
    obtain ⟨r', hr, rfl⟩ := Option.map_eq_some_iff.1 h
    obtain ⟨ht, b', hread⟩ := sgetc_bounded b hr
    cases hc : r'.read with
    | none => exact .inl ⟨ht, b'⟩
    | some c =>
      exact .inl ⟨ht, hread (by simp [hc]), b'.seen, b'.put, b'.fits, b'.length, b'.max_lt⟩

/-- The buffer after a failed growth. -/
def moved (s : Buffer) : Buffer := { s with buffer_ := Heap.splice s.buffer_ 0 s.data }

theorem Bounded.length_data (b : Bounded s) (hget : s.gptr ≤ s.pptr) :
    s.data.length = s.pptr - s.gptr := by
  have hput := b.put
  have hfits := b.fits
  rw [Buffer.data, List.length_take, List.length_drop, Buffer.size, Word.sub_of_le hget]
  omega

theorem Bounded.splice (b : Bounded s) (hget : s.gptr ≤ s.pptr) :
    0 + s.data.length ≤ s.buffer_.length := by
  have hput := b.put
  have hfits := b.fits
  rw [b.length_data hget]
  omega

theorem Bounded.of_moved (b : Bounded s) (hget : s.gptr ≤ s.pptr) : Bounded (moved s) := by
  have hlen := Heap.length_splice (b.splice hget)
  exact ⟨by rw [moved, hlen]; exact b.get, b.seen, b.put,
    by rw [moved, hlen]; exact b.fits, by rw [moved, hlen]; exact b.length,
    b.max_lt⟩

theorem getElem?_data (s : Buffer) (i : Nat) :
    s.data[i]? = if i < s.size then s.buffer_[s.gptr + i]? else none := by
  rw [Buffer.data, List.getElem?_take, List.getElem?_drop]

/-- A readable byte after the move is the one `gptr()` further on, if there is one. -/
theorem getElem?_moved (b : Bounded s) (hget : s.gptr ≤ s.pptr) (i : Nat) :
    (moved s).data[i]? =
      if s.gptr + i < s.data.length then s.data[s.gptr + i]? else s.data[i]? := by
  have hlen := b.length_data hget
  have hsize : s.size = s.pptr - s.gptr := Word.sub_of_le hget
  have hmoved := Heap.getElem?_splice (b.splice hget) (s.gptr + i)
  simp only [Nat.not_lt_zero, if_false, Nat.zero_add, Nat.sub_zero] at hmoved
  have hdata : (moved s).data[i]? =
      if i < s.size then (Heap.splice s.buffer_ 0 s.data)[s.gptr + i]? else none :=
    getElem?_data (moved s) i
  rw [hdata, hmoved]
  by_cases hi : s.gptr + i < s.data.length
  · rw [if_pos (by omega), if_pos hi, if_pos hi]
  · rw [if_neg hi, if_neg hi, getElem?_data s i]

theorem data_moved_iff (b : Bounded s) (hget : s.gptr ≤ s.pptr) :
    (moved s).data = s.data ↔ s.data.drop s.gptr <+: s.data := by
  constructor
  · intro h
    rw [List.prefix_iff_getElem?]
    intro i hi
    rw [List.length_drop] at hi
    rw [List.getElem_drop, ← List.getElem?_eq_getElem, ← h, getElem?_moved b hget,
      if_pos (by omega), h]
  · intro h
    rw [List.prefix_iff_getElem?] at h
    refine List.ext_getElem? fun i => ?_
    rw [getElem?_moved b hget]
    split
    · rename_i hi
      rw [h i (by rw [List.length_drop]; omega), List.getElem_drop, List.getElem?_eq_getElem]
    · rfl

theorem Reached.bounded (hm : max_size < 2 ^ 64) (h : Reached max_size s) : Bounded s := by
  induction h with
  | init => exact bounded_construct hm
  | call op r _ hr ih =>
    rcases ih.call hr with ⟨-, hb⟩ | ⟨-, hget, hbuf⟩
    · exact hb
    · rcases hbuf with ⟨-, hbuf⟩ | hbuf
      · rw [hbuf]
        exact ih
      · rw [hbuf]
        exact ih.of_moved hget

end Bounded

/-- The operations that only read. -/
def Op.Reads : Op → Prop
  | .consume n => n < 2 ^ 31
  | .sgetc | .sbumpc => True
  | _ => False

/-- The characters that operations read, and the bytes that are left to read after them. -/
def reads : List Op → Buffer → Option (List (Option UInt8) × List UInt8)
  | [], s => some ([], s.data)
  | op :: ops, s =>
    (op.call s).bind fun r => (reads ops r.buf).map fun (cs, data) => (r.read :: cs, data)

/-- Two buffers that differ in bytes at most that have been read. -/
structure Agree (s t : Buffer) : Prop where
  same : t = { s with buffer_ := t.buffer_ }
  length : t.buffer_.length = s.buffer_.length
  bytes : ∀ i, s.gptr ≤ i → t.buffer_[i]? = s.buffer_[i]?
  get : s.gptr ≤ s.pptr
  seen : s.egptr ≤ s.pptr

section Agree

variable {s t : Buffer}

theorem Agree.data (h : Agree s t) : t.data = s.data := by
  refine List.ext_getElem? fun i => ?_
  rw [getElem?_data, getElem?_data, h.bytes (s.gptr + i) (Nat.le_add_right ..) |>.symm, h.same]
  rfl

/-- Two outcomes that are both undefined or agree. -/
def Alike : Option Result → Option Result → Prop
  | none, none => True
  | some r, some r' => r'.read = r.read ∧ Agree r.buf r'.buf
  | _, _ => False

theorem Agree.underflow (h : Agree s t) : Alike (underflow s) (underflow t) := by
  obtain ⟨hsame, hlen, hbytes, hget, hseen⟩ := h
  generalize t.buffer_ = bytes at hsame hlen hbytes
  subst hsame
  rw [Streambuf.underflow, Streambuf.underflow]
  simp only [hbytes s.gptr (Nat.le_refl _)]
  split
  · cases hc : s.buffer_[s.gptr]? with
    | none => trivial
    | some c => exact ⟨rfl, rfl, hlen, hbytes, hget, Nat.le_refl _⟩
  · exact ⟨rfl, rfl, hlen, hbytes, hget, hseen⟩

theorem Agree.sgetc (h : Agree s t) : Alike (sgetc s) (sgetc t) := by
  have hunder := h.underflow
  obtain ⟨hsame, hlen, hbytes, hget, hseen⟩ := h
  generalize t.buffer_ = bytes at hsame hlen hbytes
  subst hsame
  rw [Streambuf.sgetc, Streambuf.sgetc]
  simp only [hbytes s.gptr (Nat.le_refl _)]
  split
  · cases hc : s.buffer_[s.gptr]? with
    | none => trivial
    | some c => exact ⟨rfl, rfl, hlen, hbytes, hget, hseen⟩
  · exact hunder

theorem sgetc_lt (hseen : s.egptr ≤ s.pptr) (h : Streambuf.sgetc s = some r) (hr : r.read ≠ none) :
    r.buf.gptr < r.buf.pptr := by
  rw [Streambuf.sgetc] at h
  split at h
  · obtain ⟨c, -, rfl⟩ := Option.map_eq_some_iff.1 h
    exact Nat.lt_of_lt_of_le ‹_› hseen
  · rw [Streambuf.underflow] at h
    split at h
    · obtain ⟨c, -, rfl⟩ := Option.map_eq_some_iff.1 h
      assumption
    · obtain rfl := Option.some.inj h
      exact absurd rfl hr

theorem Agree.sbumpc (h : Agree s t) : Alike (sbumpc s) (sbumpc t) := by
  have hget := h.sgetc
  rw [Streambuf.sbumpc, Streambuf.sbumpc]
  cases hs : Streambuf.sgetc s with
  | none =>
    cases ht : Streambuf.sgetc t with
    | none => trivial
    | some r' =>
      rw [hs, ht] at hget
      exact hget.elim
  | some r =>
    cases ht : Streambuf.sgetc t with
    | none =>
      rw [hs, ht] at hget
      exact hget.elim
    | some r' =>
      rw [hs, ht] at hget
      obtain ⟨hread, hagree⟩ := hget
      have hlt := sgetc_lt h.seen hs
      cases hc : r.read with
      | none =>
        rw [Option.map_some, Option.map_some, hread, hc]
        exact ⟨hread, hagree⟩
      | some c =>
        rw [Option.map_some, Option.map_some, hread, hc]
        refine ⟨rfl, ?_, hagree.length,
          fun i hi => hagree.bytes i (Nat.le_of_succ_le hi), hlt (by simp [hc]), hagree.seen⟩
        rw [hagree.same]

theorem Agree.consume (h : Agree s t) (hn : n < 2 ^ 31) : Alike (consume n s) (consume n t) := by
  obtain ⟨hsame, hlen, hbytes, hget, hseen⟩ := h
  generalize t.buffer_ = bytes at hsame hlen hbytes
  subst hsame
  have hmin : (if s.pptr < s.gptr + n then s.pptr - s.gptr else n) = min n (s.pptr - s.gptr) := by
    split <;> omega
  rw [Streambuf.consume, Streambuf.consume, egptr_eq, egptr_eq]
  simp only [if_neg (show ¬ 2 ^ 63 ≤ n by omega), Word.sub_of_le hget, hmin, hlen]
  cases hb : bump s.buffer_.length s.gptr (int (min n (s.pptr - s.gptr))) with
  | none => trivial
  | some gptr =>
    have hq := (bump_le hb).2
    rw [int_of_lt (by omega)] at hq
    exact ⟨rfl, rfl, hlen, fun i hi => hbytes i (by simp only at hi; omega), by simp only; omega,
      Nat.max_le.2 ⟨hseen, Nat.le_refl _⟩⟩

theorem Agree.call (h : Agree s t) {op : Op} (ho : op.Reads) : Alike (op.call s) (op.call t) := by
  cases op with
  | consume n => exact h.consume ho
  | sgetc => exact h.sgetc
  | sbumpc => exact h.sbumpc
  | prepare | write | commit | sputc => exact ho.elim

/-- Whoever reads does not see a difference. -/
theorem Agree.reads {ops : List Op} (h : Agree s t) (ho : ∀ op ∈ ops, op.Reads) :
    reads ops t = reads ops s := by
  induction ops generalizing s t with
  | nil => rw [Streambuf.reads, Streambuf.reads, h.data]
  | cons op ops ih =>
    have hcall := h.call (ho op List.mem_cons_self)
    rw [Streambuf.reads, Streambuf.reads]
    cases hs : op.call s with
    | none =>
      cases ht : op.call t with
      | none => rfl
      | some r' =>
        rw [hs, ht] at hcall
        exact hcall.elim
    | some r =>
      cases ht : op.call t with
      | none =>
        rw [hs, ht] at hcall
        exact hcall.elim
      | some r' =>
        rw [hs, ht] at hcall
        obtain ⟨hread, hagree⟩ := hcall
        rw [Option.bind_some, Option.bind_some, hread,
          ih hagree fun o h => ho o (List.mem_cons_of_mem _ h)]

theorem Bounded.agree (b : Bounded s) (hget : s.gptr ≤ s.pptr) (h : (moved s).data = s.data) :
    Agree s (moved s) := by
  have hsize : s.size = s.pptr - s.gptr := Word.sub_of_le hget
  have hlen := b.length_data hget
  refine ⟨rfl, Heap.length_splice (b.splice hget), fun i hi => ?_, hget, b.seen⟩
  obtain ⟨j, rfl⟩ := Nat.exists_eq_add_of_le hi
  have hdata := congrArg (·[j]?) h
  simp only [getElem?_data, show (moved s).size = s.size from rfl,
    show (moved s).gptr = s.gptr from rfl] at hdata
  by_cases hj : j < s.size
  · rwa [if_pos hj, if_pos hj] at hdata
  · rw [moved, Heap.getElem?_splice (b.splice hget), if_neg (Nat.not_lt_zero _),
      if_neg (by omega)]

end Agree

/-- A growth that throws is noticed unless no bytes have been read or the readable ones recur at
that distance. -/
theorem failed_growth (hm : max_size < 2 ^ 64) (h : Reached max_size s) {op : Op}
    (hc : op.call s = some r) (ht : r.thrown = some e) :
    r.buf.size = s.size ∧
    ((r.buf.data = s.data ∧ ∀ ops, (∀ o ∈ ops, o.Reads) → reads ops r.buf = reads ops s) ↔
      s.data.drop s.gptr <+: s.data) := by
  have b := h.bounded hm
  obtain ⟨-, hget, hbuf⟩ := (b.call hc).resolve_left fun hok => by simp [hok.1] at ht
  rcases hbuf with ⟨h0, hbuf⟩ | hbuf
  · rw [hbuf, h0, List.drop_zero]
    exact ⟨rfl, iff_of_true ⟨rfl, fun _ _ => rfl⟩ (List.prefix_refl _)⟩
  · rw [hbuf, ← data_moved_iff b hget]
    exact ⟨rfl, fun h => h.1, fun h => ⟨h, fun _ ho => (b.agree hget h).reads ho⟩⟩

/-- Four characters of which one has been read. -/
theorem reached_three (a b c d : UInt8) : Reached 4 ⟨4, [a, b, c, d], 1, 4, 4, 4⟩ := by
  have h₁ := (Reached.init : Reached 4 _).call (.prepare 4 true) _ rfl
  have h₂ := h₁.call (.write 0 [a, b, c, d]) _ rfl
  have h₃ := h₂.call (.commit 4) _ rfl
  exact h₃.call (.consume 1) _ rfl

/-- The characters move to the front, which is noticed unless they are all the same. -/
theorem failed_growth_three :
    ((⟨4, [2, 3, 4, 4], 1, 4, 4, 4⟩ : Buffer).size = 3 ∧
      ¬ ((⟨4, [2, 3, 4, 4], 1, 4, 4, 4⟩ : Buffer).data = [2, 3, 4] ∧
        ∀ ops, (∀ o ∈ ops, o.Reads) →
          reads ops ⟨4, [2, 3, 4, 4], 1, 4, 4, 4⟩ = reads ops ⟨4, [1, 2, 3, 4], 1, 4, 4, 4⟩)) ∧
    (⟨4, [5, 5, 5, 5], 1, 4, 4, 4⟩ : Buffer).data = [5, 5, 5] ∧
      ∀ ops, (∀ o ∈ ops, o.Reads) →
        reads ops ⟨4, [5, 5, 5, 5], 1, 4, 4, 4⟩ = reads ops ⟨4, [1, 5, 5, 5], 1, 4, 4, 4⟩ := by
  have hlimit : 4 < 2 ^ 64 := by decide
  constructor
  · obtain ⟨hsize, hiff⟩ := @failed_growth _ _ _ _ hlimit (reached_three 1 2 3 4) (.prepare 2 true)
      rfl rfl
    exact ⟨hsize, fun h => absurd (hiff.1 h) (by decide)⟩
  · obtain ⟨-, hiff⟩ := @failed_growth _ _ _ _ hlimit (reached_three 1 5 5 5) (.prepare 2 true)
      rfl rfl
    exact hiff.2 (by decide)

theorem failed_growth_noticed :
    ¬ ∀ s n room r, Reached 4 s → prepare room n s = some r → r.thrown = some .length_error →
      r.buf.data = s.data := by
  intro h
  have hdata := h _ 2 true _ (reached_three 1 2 3 4) rfl rfl
  exact absurd hdata (by decide)

end Coio.Streambuf
