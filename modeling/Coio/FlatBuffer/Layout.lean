import Coio.FlatBuffer.Model

namespace Coio.FlatBuffer
set_option autoImplicit true

/-- The bytes of the block of a buffer. -/
def cells (h : Memory A) (b : Buffer A) : List UInt8 :=
  match b.data_ with
  | some p => (h p).elim [] fun k => k.cells
  | none => []

/-- The bytes of `data()`. -/
def readable (h : Memory A) (b : Buffer A) : List UInt8 :=
  ((cells h b).drop b.in_).take (b.out_ - b.in_)

/-- The bytes that `commit` can still append. -/
def window (h : Memory A) (b : Buffer A) : List UInt8 :=
  ((cells h b).drop b.out_).take (b.last_ - b.out_)

structure Valid (h : Memory A) (b : Buffer A) : Prop where
  in_le : b.in_ ≤ b.out_
  out_le : b.out_ ≤ b.last_
  last_le : b.last_ ≤ b.end_
  end_lt : b.end_ < Word.modulus
  max_lt : b.max_ < Word.modulus
  null : b.data_ = none ↔ b.end_ = 0
  block : ∀ p, b.data_ = some p → ∃ cs, h p = some ⟨b.alloc_, cs⟩ ∧ cs.length = b.end_

/-- The readable bytes and the prepared ones fit into `max_size()`. -/
def Within (b : Buffer A) : Prop := b.last_ - b.in_ ≤ b.max_

variable {h h' : Memory A} {b src : Buffer A}

theorem Valid.size_eq (v : Valid h b) : b.size = b.out_ - b.in_ := by
  have := v.in_le
  have := v.out_le
  have := v.last_le
  have := v.end_lt
  exact Word.sub_of_le v.in_le

theorem Valid.size_le (v : Valid h b) : b.size ≤ b.end_ := by
  rw [v.size_eq]
  have := v.out_le
  have := v.last_le
  omega

theorem Valid.size_le_max (v : Valid h b) (hw : Within b) : b.size ≤ b.max_ := by
  rw [v.size_eq]
  have := v.out_le
  unfold Within at hw
  omega

theorem Valid.size_lt (v : Valid h b) : b.size < Word.modulus :=
  Nat.lt_of_le_of_lt v.size_le v.end_lt

theorem cells_of_block (hd : b.data_ = some p) (hp : h p = some ⟨a, cs⟩) : cells h b = cs := by
  simp only [cells, hd, hp, Option.elim_some]

theorem Valid.length_cells (v : Valid h b) : (cells h b).length = b.end_ := by
  cases hd : b.data_ with
  | none => simp [cells, hd, v.null.1 hd]
  | some p =>
    obtain ⟨cs, hp, hl⟩ := v.block p hd
    rw [cells_of_block hd hp, hl]

theorem Valid.length_readable (v : Valid h b) : (readable h b).length = b.out_ - b.in_ := by
  have := v.out_le
  have := v.last_le
  rw [readable, List.length_take, List.length_drop, v.length_cells]
  omega

theorem Valid.length_window (v : Valid h b) : (window h b).length = b.last_ - b.out_ := by
  have := v.last_le
  rw [window, List.length_take, List.length_drop, v.length_cells]
  omega

theorem Valid.data_of_pos (v : Valid h b) (he : 0 < b.end_) :
    ∃ p cs, b.data_ = some p ∧ h p = some ⟨b.alloc_, cs⟩ ∧ cs.length = b.end_ := by
  cases hd : b.data_ with
  | none =>
    have := v.null.1 hd
    omega
  | some p =>
    obtain ⟨cs, hp, hl⟩ := v.block p hd
    exact ⟨p, cs, rfl, hp, hl⟩

theorem Valid.isSome_iff (v : Valid h b) : b.data_.isSome ↔ 0 < b.end_ := by
  rw [Option.isSome_iff_ne_none, ne_eq, v.null, Nat.pos_iff_ne_zero]

/-- A heap that has the block of a buffer unchanged. -/
theorem Valid.frame (v : Valid h b) (hf : ∀ p, b.data_ = some p → h' p = h p) : Valid h' b where
  in_le := v.in_le
  out_le := v.out_le
  last_le := v.last_le
  end_lt := v.end_lt
  max_lt := v.max_lt
  null := v.null
  block p hd := by
    rw [hf p hd]
    exact v.block p hd

theorem cells_frame (hf : ∀ p, b.data_ = some p → h' p = h p) : cells h' b = cells h b := by
  cases hd : b.data_ with
  | none => simp only [cells, hd]
  | some p => simp only [cells, hd, hf p hd]

theorem readable_frame (hf : ∀ p, b.data_ = some p → h' p = h p) :
    readable h' b = readable h b := by
  rw [readable, readable, cells_frame hf]

theorem window_frame (hf : ∀ p, b.data_ = some p → h' p = h p) : window h' b = window h b := by
  rw [window, window, cells_frame hf]

/-- A buffer whose readable bytes are at the front of its block. -/
def front (b : Buffer A) (p len last cap : Nat) : Buffer A :=
  { b with data_ := some p, in_ := 0, out_ := len, last_ := last, end_ := cap }

theorem Valid.front (hp : h p = some ⟨b.alloc_, cs⟩) (hc : cs.length = cap) (h₁ : len ≤ last)
    (h₂ : last ≤ cap) (h₃ : 0 < cap) (h₄ : cap < Word.modulus) (h₅ : b.max_ < Word.modulus) :
    Valid h (front b p len last cap) where
  in_le := Nat.zero_le _
  out_le := h₁
  last_le := h₂
  end_lt := h₄
  max_lt := h₅
  null := by
    simp only [FlatBuffer.front, reduceCtorEq, false_iff]
    omega
  block q hq := by
    cases hq
    exact ⟨cs, hp, hc⟩

theorem within_front {b : Buffer A} (hm : last ≤ b.max_) : Within (front b p len last cap) := hm

theorem readable_front (hp : h p = some ⟨a, cs⟩) :
    readable h (front b p len last cap) = cs.take len := by
  rw [readable, cells_of_block (p := p) rfl hp]
  rfl

theorem Valid.reset (v : Valid h b) : Valid h' (reset b) where
  in_le := Nat.le_refl _
  out_le := Nat.le_refl _
  last_le := Nat.le_refl _
  end_lt := Nat.lt_of_le_of_lt (Nat.zero_le _) v.end_lt
  max_lt := v.max_lt
  null := by simp [FlatBuffer.reset]
  block p hp := by simp [FlatBuffer.reset] at hp

theorem readable_reset : readable h (reset b) = [] := by
  simp [readable, reset]

theorem window_reset : window h (reset b) = [] := by
  simp [window, reset]

theorem readable_nil (h₀ : b.in_ = b.out_) : readable h b = [] := by
  simp [readable, h₀]

/-- The heap after the block of a buffer has gone back to the allocator. -/
def release (h : Memory A) (b : Buffer A) : Memory A :=
  match b.data_ with
  | some p => h.free p
  | none => h

theorem destroy_eq [DecidableEq A] (v : Valid h b) : destroy h b = some (release h b, reset b) := by
  cases hd : b.data_ with
  | none => simp [destroy, release, hd]
  | some p =>
    obtain ⟨cs, hp, hl⟩ := v.block p hd
    simp [destroy, release, hd, Heap.dealloc_eq hp hl]

theorem release_of_ne (hq : b.data_ ≠ some q) : release h b q = h q := by
  cases hd : b.data_ with
  | none => simp only [release, hd]
  | some p =>
    have hqp : q ≠ p := by
      rintro rfl
      exact hq hd
    simp only [release, hd, Heap.free_of_ne hqp]

theorem release_self (hd : b.data_ = some p) : release h b p = none := by
  simp only [release, hd, Heap.free_self]

theorem Valid.ne_fresh (v : Valid h b) (hp : h p = none) : b.data_ ≠ some p := by
  intro hd
  obtain ⟨cs, hs, _⟩ := v.block p hd
  rw [hp] at hs
  cases hs

theorem Valid.alloc (v : Valid h b) (hp : h p = none) : Valid (h.alloc p a cs) b :=
  v.frame fun _ hq => Heap.alloc_of_ne fun he => v.ne_fresh hp (he ▸ hq)

theorem readable_alloc (v : Valid h b) (hp : h p = none) :
    readable (h.alloc p a cs) b = readable h b :=
  readable_frame fun _ hq => Heap.alloc_of_ne fun he => v.ne_fresh hp (he ▸ hq)

/-- The copy of the readable bytes of a buffer to the front of a block. -/
theorem memcpy_eq (v : Valid h src) (hs : 0 < src.size) (hp : h p = some ⟨a, old⟩)
    (hl : src.size ≤ old.length) :
    memcpy h (some p) 0 src.data_ src.in_ src.size =
      some (h.alloc p a (Heap.splice old 0 (readable h src))) := by
  have hsize := v.size_eq
  have := v.in_le
  have := v.out_le
  have := v.last_le
  obtain ⟨q, cs, hd, hq, hc⟩ := v.data_of_pos (by omega)
  simp only [memcpy, hd, Option.bind_some]
  rw [Heap.copy_eq hq (by omega) hp (by omega), readable, cells_of_block hd hq, hsize]

theorem Valid.length_readable_eq_size (v : Valid h b) : (readable h b).length = b.size := by
  rw [v.length_readable, v.size_eq]

theorem readable_of_size_zero (v : Valid h b) (hs : b.size = 0) : readable h b = [] :=
  List.length_eq_zero_iff.1 (v.length_readable_eq_size.trans hs)

theorem copyOut_eq (junk : Nat → UInt8) (v : Valid h src) (hp : h p = none)
    (hl : src.size ≤ cap) :
    ∃ cs, copyOut p junk cap a h src = some (h.alloc p a cs) ∧ cs.length = cap ∧
      cs.take src.size = readable h src := by
  have hj : ((List.range cap).map junk).length = cap := by simp
  by_cases hs : 0 < src.size
  · refine ⟨Heap.splice ((List.range cap).map junk) 0 (readable h src), ?_, ?_, ?_⟩
    · rw [copyOut, if_pos hs, memcpy_eq (v.alloc hp) hs Heap.alloc_self (by omega),
        Heap.alloc_alloc, readable_alloc v hp]
    · rw [Heap.length_splice, hj]
      rw [v.length_readable_eq_size]
      omega
    · rw [← v.length_readable_eq_size]
      exact Heap.take_splice_zero
  · have h₀ : src.size = 0 := by omega
    refine ⟨_, if_neg hs, hj, ?_⟩
    rw [h₀, List.take_zero, readable_of_size_zero v h₀]

end Coio.FlatBuffer
