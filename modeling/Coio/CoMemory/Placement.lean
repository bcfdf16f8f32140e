import Coio.CoMemory.Model

namespace Coio.CoMemory
set_option autoImplicit true

variable {P : Platform} {T : AllocType}

theorem Platform.pos (P : Platform) : 0 < P.default_new_alignment := by
  obtain ⟨k, hk⟩ := P.power
  exact hk ▸ Nat.two_pow_pos k

theorem AllocType.align_pos (T : AllocType) : 0 < T.alignof := by
  obtain ⟨k, hk⟩ := T.power
  exact hk ▸ Nat.two_pow_pos k

theorem AllocType.align_le (T : AllocType) : T.alignof ≤ T.sizeof := Nat.le_of_dvd T.pos T.dvd

/-- One of the two alignments divides the other. -/
theorem dvd_or (P : Platform) (T : AllocType) :
    T.alignof ∣ P.default_new_alignment ∨ P.default_new_alignment ∣ T.alignof := by
  obtain ⟨i, hi⟩ := T.power
  obtain ⟨j, hj⟩ := P.power
  rw [hi, hj]
  exact Align.two_pow_dvd_or i j

/-- The sum of a rounding does not wrap around, as long as it is at most one more than a
`std::size_t` holds. -/
theorem sub_add_one (hm : 0 < m) (h : n + m ≤ Word.modulus) :
    Word.sub (Word.add n m) 1 = n + m - 1 := by
  rw [Word.add, Word.sub]
  split <;> split <;> omega

theorem ceiling_division_eq (hm : 0 < m) (h : n + m ≤ Word.modulus) :
    ceiling_division n m = (n + m - 1) / m := by
  rw [ceiling_division, sub_add_one hm h]

theorem align_address_eq (ha : 0 < a) (h : ptr + n + a ≤ Word.modulus) :
    align_address ptr a n = Align.up (ptr + n) a := by
  have hlt := Align.up_lt (ptr + n) ha
  have hsum : Word.add ptr n = ptr + n := Word.add_of_lt (by omega)
  have hup : ceiling_division (ptr + n) a * a = Align.up (ptr + n) a := by
    rw [ceiling_division_eq ha h, Align.up]
  rw [align_address, ceiling_align, hsum, hup, Nat.mod_eq_of_lt (by omega)]

/-- The block that holds a frame of the size `n`. -/
structure Safe (P : Platform) (T : AllocType) (n ptr : Nat) (l : Layout) : Prop where
  frame : n ≤ l.blocks * P.default_new_alignment
  alloc : ∀ a ∈ l.alloc_ptr, T.alignof ∣ a ∧ ptr + n ≤ a ∧
    a + T.sizeof ≤ ptr + l.blocks * P.default_new_alignment
  fn : ∀ f ∈ l.fn_ptr, ptr + n ≤ f ∧
    f + P.sizeof_dealloc_fn ≤ ptr + l.blocks * P.default_new_alignment
  apart : ∀ a ∈ l.alloc_ptr, ∀ f ∈ l.fn_ptr, f + P.sizeof_dealloc_fn ≤ a ∨ a + T.sizeof ≤ f

/-- The blocks that are counted for `length` bytes with an allocator behind them. -/
theorem alloc_placed (hn : length + T.sizeof + max_alignment P T ≤ Word.modulus)
    (hp : P.default_new_alignment ∣ ptr)
    (hb : ptr + Word.sub (Word.add (Word.add length T.sizeof) (max_alignment P T)) 1 /
      P.default_new_alignment * P.default_new_alignment ≤ Word.modulus) :
    T.alignof ∣ align_address ptr T.alignof length ∧
      ptr + length ≤ align_address ptr T.alignof length ∧
      align_address ptr T.alignof length + T.sizeof ≤
        ptr + Word.sub (Word.add (Word.add length T.sizeof) (max_alignment P T)) 1 /
          P.default_new_alignment * P.default_new_alignment := by
  have ha := T.align_pos
  have hd := P.pos
  have hle := T.align_le
  have hmax : 0 < max_alignment P T := Nat.lt_of_lt_of_le ha (Nat.le_max_left ..)
  rw [Word.add_of_lt (show length + T.sizeof < Word.modulus by omega), sub_add_one hmax hn] at hb ⊢
  have hroom := Align.add_le_blocks (n := length) hd (dvd_or P T) hle
  have heq : align_address ptr T.alignof length = Align.up (ptr + length) T.alignof :=
    align_address_eq ha (by unfold max_alignment at hb; omega)
  rw [heq]
  exact ⟨Align.dvd_up _ _, Align.le_up _ ha,
    Align.up_add_le ha hd (dvd_or P T) T.dvd hp⟩

/-- What is added to the size of a frame before it is rounded. -/
def Typed.overhead (P : Platform) (T : AllocType) : Nat :=
  if T.stateless then P.default_new_alignment else T.sizeof + max_alignment P T

def Erased.overhead (P : Platform) (T : AllocType) : Nat :=
  P.sizeof_dealloc_fn + Typed.overhead P T

theorem typed_safe (hn : n + Typed.overhead P T ≤ Word.modulus)
    (hp : P.default_new_alignment ∣ ptr)
    (hb : ptr + (Typed.allocate P T n ptr).blocks * P.default_new_alignment ≤ Word.modulus) :
    Safe P T n ptr (Typed.allocate P T n ptr) := by
  unfold Typed.allocate Typed.overhead at *
  split at hb
  · rename_i hs
    rw [if_pos hs] at hn ⊢
    refine ⟨?_, nofun, nofun, nofun⟩
    rw [ceiling_division_eq P.pos hn]
    exact Align.le_up n P.pos
  · rename_i hs
    rw [if_neg hs] at hn ⊢
    have hplaced := alloc_placed (by omega) hp hb
    refine ⟨?_, ?_, nofun, nofun⟩
    · dsimp only
      have hpos := T.pos
      omega
    · rintro a ⟨⟩
      exact hplaced

theorem erased_safe (hn : n + Erased.overhead P T ≤ Word.modulus)
    (hp : P.default_new_alignment ∣ ptr)
    (hb : ptr + (Erased.allocate P T n ptr).blocks * P.default_new_alignment ≤ Word.modulus) :
    Safe P T n ptr (Erased.allocate P T n ptr) := by
  have hfn := P.fn_pos
  unfold Erased.overhead at hn
  have hlength : Word.add n P.sizeof_dealloc_fn = n + P.sizeof_dealloc_fn := by
    refine Word.add_of_lt ?_
    have hpos := P.pos
    have hpos' := T.pos
    unfold Typed.overhead at hn
    split at hn <;> omega
  unfold Erased.allocate Typed.overhead at *
  simp only [hlength] at hb ⊢
  split at hb
  · rename_i hs
    rw [if_pos hs] at hn ⊢
    have hblocks : n + P.sizeof_dealloc_fn ≤
        ceiling_division (n + P.sizeof_dealloc_fn) P.default_new_alignment *
          P.default_new_alignment := by
      rw [ceiling_division_eq P.pos (by omega)]
      exact Align.le_up _ P.pos
    dsimp only at hb
    have hptr : Word.add ptr n = ptr + n := Word.add_of_lt (by omega)
    rw [hptr]
    refine ⟨?_, nofun, ?_, nofun⟩
    · dsimp only
      omega
    · rintro f ⟨⟩
      dsimp only
      omega
  · rename_i hs
    rw [if_neg hs] at hn ⊢
    dsimp only at hb
    have hsum : n + P.sizeof_dealloc_fn + T.sizeof + max_alignment P T ≤ Word.modulus := by omega
    obtain ⟨hdvd, hge, hle⟩ := alloc_placed hsum hp hb
    have hpos := T.pos
    have hptr : Word.add ptr n = ptr + n := Word.add_of_lt (by omega)
    rw [hptr]
    refine ⟨?_, ?_, ?_, ?_⟩
    · dsimp only
      omega
    · rintro a ⟨⟩
      dsimp only
      exact ⟨hdvd, by omega, hle⟩
    · rintro f ⟨⟩
      dsimp only
      omega
    · rintro a ⟨⟩ f ⟨⟩
      exact .inl (by omega)

theorem typed_deallocate (n ptr : Nat) :
    Typed.deallocate P T ptr n = Typed.allocate P T n ptr := by
  unfold Typed.deallocate Typed.allocate
  split <;> rfl

/-- The function that was stored finds what its `allocate` has placed. -/
theorem erased_deallocate {stored : Nat → Option AllocType}
    (hstored : ∀ f ∈ (Erased.allocate P T n ptr).fn_ptr, stored f = some T) :
    Erased.deallocate P stored ptr n = some (Erased.allocate P T n ptr) := by
  have hfn : (Erased.allocate P T n ptr).fn_ptr = some (Word.add ptr n) := by
    unfold Erased.allocate
    split <;> rfl
  rw [Erased.deallocate, hstored _ hfn, Option.map_some]
  unfold Erased.dealloc_fn Erased.allocate
  cases T.stateless <;> rfl

/-- The allocator and the deallocating function are stored in the block behind the frame, apart from
each other and aligned, and `deallocate` finds them again and gives as many blocks back. -/
theorem co_memory_placement (hp : P.default_new_alignment ∣ ptr) :
    (n + Typed.overhead P T ≤ Word.modulus →
      ptr + (Typed.allocate P T n ptr).blocks * P.default_new_alignment ≤ Word.modulus →
      Safe P T n ptr (Typed.allocate P T n ptr) ∧
        (Typed.allocate P T n ptr).alloc_ptr.isSome = !T.stateless ∧
        Typed.deallocate P T ptr n = Typed.allocate P T n ptr) ∧
    (n + Erased.overhead P T ≤ Word.modulus →
      ptr + (Erased.allocate P T n ptr).blocks * P.default_new_alignment ≤ Word.modulus →
      Safe P T n ptr (Erased.allocate P T n ptr) ∧
        (Erased.allocate P T n ptr).fn_ptr.isSome ∧
        (Erased.allocate P T n ptr).alloc_ptr.isSome = !T.stateless ∧
        ∀ stored : Nat → Option AllocType,
          (∀ f ∈ (Erased.allocate P T n ptr).fn_ptr, stored f = some T) →
          Erased.deallocate P stored ptr n = some (Erased.allocate P T n ptr)) := by
  refine ⟨fun hn hb => ⟨typed_safe hn hp hb, ?_, typed_deallocate n ptr⟩,
    fun hn hb => ⟨erased_safe hn hp hb, ?_, ?_, fun stored => erased_deallocate⟩⟩
  · unfold Typed.allocate
    cases T.stateless <;> rfl
  · unfold Erased.allocate
    cases T.stateless <;> rfl
  · unfold Erased.allocate
    cases T.stateless <;> rfl

/-- The blocks do for a frame of 100 bytes and an allocator that is more than fully aligned. -/
theorem co_memory_placement_over_aligned :
    let P : Platform := ⟨16, 8, ⟨4, rfl⟩, by decide⟩
    let T : AllocType := ⟨64, 64, false, ⟨6, rfl⟩, by decide, by decide⟩
    Safe P T 100 4112 (Erased.allocate P T 100 4112) := by
  intro P T
  have haligned : P.default_new_alignment ∣ 4112 := by decide
  have h := (co_memory_placement (T := T) (n := 100) haligned).2
  exact (h (by decide) (by decide)).1

end Coio.CoMemory
