import Coio.FlatBuffer.Layout

namespace Coio.FlatBuffer
set_option autoImplicit true

/-- An answer that the allocator can give: the address is not in use. -/
def Answer.Fits (h : Memory A) : Answer → Prop
  | .block p _ => h p = none
  | .bad_alloc => True

/-- What every operation of a buffer keeps: it stays valid and touches no other block. -/
structure Safe (h : Memory A) (b : Buffer A) (r : Result A) : Prop where
  valid : Valid r.heap r.buffer
  within : Within r.buffer
  frame : ∀ q, b.data_ ≠ some q → r.buffer.data_ ≠ some q → r.heap q = h q
  fresh : r.buffer.data_ = b.data_ ∨ ∀ q, r.buffer.data_ = some q → h q = none
  freed : ∀ q, b.data_ = some q → r.buffer.data_ ≠ some q → r.heap q = none

variable {h : Memory A} {b other : Buffer A}

/-- A change of the offsets. -/
theorem Safe.offsets (v : Valid h b') (w : Within b') (hd : b'.data_ = b.data_) :
    Safe h b { heap := h, buffer := b', thrown := e, span := s } where
  valid := v
  within := w
  frame _ _ _ := rfl
  fresh := .inl hd
  freed _ hq hn := absurd (hd.trans hq) hn

/-- A change of the bytes of the block. -/
theorem Safe.rewrite (hd : b.data_ = some p) (hd' : b'.data_ = some p)
    (v : Valid (h.alloc p a cs) b') (w : Within b') :
    Safe h b { heap := h.alloc p a cs, buffer := b', thrown := e, span := s } where
  valid := v
  within := w
  frame _ hq _ := Heap.alloc_of_ne fun he => hq (he ▸ hd)
  fresh := .inl (hd'.trans hd.symm)
  freed _ hq hn := absurd (hd'.trans (hd.symm.trans hq)) hn

theorem release_alloc (v : Valid h b) (hp : h p = none) (cs : List UInt8) :
    release (h.alloc p a cs) b p = some ⟨a, cs⟩ := by
  rw [release_of_ne (v.ne_fresh hp), Heap.alloc_self]

/-- A move to a new block. -/
theorem Safe.relocate (hp : h p = none) (hd : b'.data_ = some p)
    (v' : Valid (release (h.alloc p a cs) b) b') (w : Within b') :
    Safe h b { heap := release (h.alloc p a cs) b, buffer := b', thrown := e, span := s } where
  valid := v'
  within := w
  frame q hq hn := by
    have hqp : q ≠ p := by
      rintro rfl
      exact hn hd
    exact (release_of_ne hq).trans (Heap.alloc_of_ne hqp)
  fresh := by
    right
    intro q hq
    rw [hd] at hq
    cases hq
    exact hp
  freed _ hq _ := release_self hq

theorem grow_ge (hm : need ≤ max_) (hlt : need < Word.modulus) (hc : 2 ^ k ≤ new_cap)
    (hf : fuel + k = 64) : need ≤ grow need max_ fuel new_cap := by
  induction fuel generalizing k new_cap with
  | zero =>
    have hk : k = 64 := by omega
    subst hk
    exact Nat.le_of_lt (Nat.lt_of_lt_of_le hlt hc)
  | succ fuel ih =>
    simp only [grow]
    split
    · next hlt' =>
      split
      · next hnext =>
        have hmod : new_cap * 2 < Word.modulus := by
          have hpos : 0 < 2 ^ k := Nat.two_pow_pos k
          have hm : Word.modulus = 2 ^ 64 := rfl
          have := hnext.1
          by_contra hge
          have : new_cap * 2 % Word.modulus = new_cap * 2 - Word.modulus := by
            rw [Nat.mod_eq_sub_mod (by omega)]
            exact Nat.mod_eq_of_lt (by omega)
          omega
        rw [Nat.mod_eq_of_lt hmod]
        exact ih (k := k + 1) (by rw [Nat.pow_succ]; omega) (by omega)
      · omega
    · omega

theorem grow_lt (hm : need < Word.modulus) (hc : new_cap < Word.modulus) :
    grow need max_ fuel new_cap < Word.modulus := by
  induction fuel generalizing new_cap with
  | zero => exact hc
  | succ fuel ih =>
    simp only [grow]
    split
    · split
      · exact ih (Nat.mod_lt _ (by decide))
      · omega
    · exact hc

/-- What `prepare` promises of its result. -/
structure Prepared (n : Nat) (h : Memory A) (b : Buffer A) (r : Result A) : Prop where
  readable : readable r.heap r.buffer = readable h b
  length : (window r.heap r.buffer).length = n
  span : r.span = ⟨r.buffer.data_, r.buffer.out_, n⟩
  room : r.buffer.out_ + n ≤ r.buffer.end_
  writable : r.buffer.data_ ≠ none
  max_size : r.buffer.max_ = b.max_

theorem Prepared.of_valid (v : Valid r.heap r.buffer)
    (hr : FlatBuffer.readable r.heap r.buffer = FlatBuffer.readable h b)
    (hl : r.buffer.last_ = r.buffer.out_ + n) (hs : r.span = ⟨r.buffer.data_, r.buffer.out_, n⟩)
    (hd : r.buffer.data_ ≠ none) (hm : r.buffer.max_ = b.max_) : Prepared n h b r where
  readable := hr
  length := by rw [v.length_window, hl, Nat.add_sub_cancel_left]
  span := hs
  room := hl ▸ v.last_le
  writable := hd
  max_size := hm

/-- A result that leaves everything as it was. -/
theorem Safe.refl (v : Valid h b) (w : Within b) :
    Safe h b { heap := h, buffer := b, thrown := e, span := s } :=
  .offsets v w rfl

/-- The readable bytes move to the front of their block. -/
theorem move_front (v : Valid h b) (hd : b.data_.isSome) :
    ∃ h', (if 0 < b.size then memcpy h b.data_ 0 b.data_ b.in_ b.size else some h) = some h' ∧
      ∀ last e s, b.size ≤ last → last ≤ b.end_ → last ≤ b.max_ →
        let b' := { b with in_ := 0, out_ := b.size, last_ := last }
        Safe h b { heap := h', buffer := b', thrown := e, span := s } ∧
          readable h' b' = readable h b := by
  have hpos := v.isSome_iff.1 hd
  have hle := v.size_le
  have hend := v.end_lt
  have hmax := v.max_lt
  obtain ⟨p, cs, hd, hp, hl⟩ := v.data_of_pos hpos
  have hb (last : Nat) :
      { b with in_ := 0, out_ := b.size, last_ := last } = front b p b.size last b.end_ := by
    simp [front, ← hd]
  by_cases hs : 0 < b.size
  · have hcp := memcpy_eq v hs hp (by omega)
    rw [← hd] at hcp
    refine ⟨_, (if_pos hs).trans hcp, fun last e s h₁ h₂ h₃ => ?_⟩
    simp only [hb]
    have hlen : (Heap.splice cs 0 (readable h b)).length = b.end_ := by
      rw [Heap.length_splice, hl]
      rw [v.length_readable_eq_size]
      omega
    refine ⟨.rewrite hd rfl (.front Heap.alloc_self hlen h₁ h₂ hpos hend hmax) (within_front h₃),
      ?_⟩
    rw [readable_front Heap.alloc_self, ← v.length_readable_eq_size]
    exact Heap.take_splice_zero
  · have h₀ : b.size = 0 := by omega
    refine ⟨h, if_neg hs, fun last e s h₁ h₂ h₃ => ?_⟩
    simp only [hb]
    refine ⟨.offsets (.front hp hl h₁ h₂ hpos hend hmax) (within_front h₃) hd.symm, ?_⟩
    rw [readable_front hp, h₀, List.take_zero]
    exact (readable_of_size_zero v h₀).symm

/-- The readable bytes move to the front of a new block and the old one is given back. -/
theorem relocate_front [DecidableEq A] (junk : Nat → UInt8) (v : Valid h b) (hp : h p = none)
    (hl : b.size ≤ cap) (h₀ : 0 < cap) (hc : cap < Word.modulus) :
    ∃ cs, copyOut p junk cap b.alloc_ h b = some (h.alloc p b.alloc_ cs) ∧
      destroy (h.alloc p b.alloc_ cs) b = some (release (h.alloc p b.alloc_ cs) b, reset b) ∧
      ∀ last e s, b.size ≤ last → last ≤ cap → last ≤ b.max_ →
        let b' := front b p b.size last cap
        let h' := release (h.alloc p b.alloc_ cs) b
        Safe h b { heap := h', buffer := b', thrown := e, span := s } ∧
          readable h' b' = readable h b := by
  obtain ⟨cs, hcp, hlen, htake⟩ := copyOut_eq (a := b.alloc_) junk v hp hl
  refine ⟨cs, hcp, destroy_eq (v.alloc hp), fun last e s h₁ h₂ h₃ => ?_⟩
  have hnew := release_alloc (a := b.alloc_) v hp cs
  refine ⟨.relocate hp rfl (.front hnew hlen h₁ h₂ h₀ hc v.max_lt) (within_front h₃), ?_⟩
  exact (readable_front hnew).trans htake

/-- Why an operation throws. -/
def Blame (o : Answer) (excess : Prop) : Option Exception → Prop
  | none => True
  | some .length_error => excess
  | some .bad_alloc => o = .bad_alloc

theorem prepare_spec [DecidableEq A] (v : Valid h b) (w : Within b) (ho : o.Fits h) :
    ∃ r, prepare o n h b = some r ∧
      ((r.thrown = none → b.size + n ≤ b.max_) →
        Safe h b r ∧ (r.thrown = none → n ≠ 0 → Prepared n h b r)) ∧
      (r.thrown ≠ none ∨ n = 0 → r.heap = h ∧ r.buffer = b) ∧
      Blame o (b.max_ < b.size + n) r.thrown := by
  have hsize := v.size_eq
  have hle := v.size_le
  have hmax := v.size_le_max w
  have hin := v.in_le
  have hout := v.out_le
  have hlast := v.last_le
  have hend := v.end_lt
  have hmlt := v.max_lt
  by_cases h₀ : n = 0
  · exact ⟨_, if_pos h₀, fun _ => ⟨.refl v w, fun _ hn => absurd h₀ hn⟩,
      fun _ => ⟨rfl, rfl⟩, trivial⟩
  have hsame : ∀ {r : Result A} {P : Prop}, r.thrown = none → (r.thrown ≠ none ∨ n = 0 → P) :=
    fun hr hc => hc.elim (absurd hr) (absurd · h₀)
  rw [prepare, if_neg h₀]
  by_cases h₁ : b.data_.isSome ∧ n ≤ Word.sub b.end_ b.out_
  · -- the bytes after the readable ones suffice
    have hroom := h₁.2
    rw [Word.sub_of_le (by omega)] at hroom
    rw [if_pos h₁, Word.add_of_lt (by omega : b.out_ + n < Word.modulus)]
    have v' : Valid h { b with last_ := b.out_ + n } :=
      { v with out_le := Nat.le_add_right _ _, last_le := by simp only; omega }
    refine ⟨_, rfl, fun hask => ⟨?_, fun _ _ => ?_⟩, hsame rfl, trivial⟩
    · have := hask rfl
      exact .offsets v' (by simp only [Within]; omega) rfl
    · exact .of_valid v' rfl rfl rfl (Option.isSome_iff_ne_none.1 h₁.1) rfl
  rw [if_neg h₁]
  by_cases h₂ : b.data_.isSome ∧ n ≤ Word.sub b.end_ b.size
  · -- the readable bytes move to the front
    have hroom := h₂.2
    rw [Word.sub_of_le hle] at hroom
    obtain ⟨h', hmove, hs⟩ := move_front v h₂.1
    simp only [if_pos h₂, hmove, Option.map_some,
      Word.add_of_lt (by omega : b.size + n < Word.modulus)]
    refine ⟨_, rfl, fun hask => ?_, hsame rfl, trivial⟩
    obtain ⟨hsafe, hr⟩ := hs (b.size + n) none ⟨b.data_, b.size, n⟩ (by omega) (by omega) (hask rfl)
    have hd := Option.isSome_iff_ne_none.1 h₂.1
    exact ⟨hsafe, fun _ _ => .of_valid hsafe.valid hr rfl rfl hd rfl⟩
  simp only [if_neg h₂, Word.sub_of_le hmax]
  by_cases h₃ : b.max_ - b.size < n
  · rw [if_pos h₃]
    exact ⟨_, rfl, fun _ => ⟨.refl v w, fun hc => absurd hc (by simp)⟩, fun _ => ⟨rfl, rfl⟩,
      (by omega : b.max_ < b.size + n)⟩
  rw [if_neg h₃]
  cases o with
  | bad_alloc =>
    exact ⟨_, rfl, fun _ => ⟨.refl v w, fun hc => absurd hc (by simp)⟩, fun _ => ⟨rfl, rfl⟩, rfl⟩
  | block p junk =>
    have hadd : Word.add b.size n = b.size + n := Word.add_of_lt (by omega)
    simp only [hadd]
    generalize hcap : grow (b.size + n) b.max_ 64 (max b.end_ 512) = cap
    have hge : b.size + n ≤ cap :=
      hcap ▸ grow_ge (k := 0) (by omega) (by omega) (by omega) rfl
    have hlt : cap < Word.modulus :=
      hcap ▸ grow_lt (by omega) (Nat.max_lt.2 ⟨hend, by decide⟩)
    obtain ⟨cs, h₄, h₅, hs⟩ :=
      relocate_front junk v ho (by omega : b.size ≤ cap) (by omega) hlt
    rw [h₄, Option.bind_some, h₅, Option.map_some]
    refine ⟨_, rfl, fun hask => ?_, hsame rfl, trivial⟩
    obtain ⟨hsafe, hr⟩ := hs (b.size + n) none ⟨some p, b.size, n⟩ (by omega) hge (hask rfl)
    exact ⟨hsafe, fun _ _ => .of_valid hsafe.valid hr rfl rfl (by simp) rfl⟩

/-- The bytes of the prepared part are overwritten in place. -/
theorem write_spec (v : Valid h b) (hw : Within b) (hd : b.data_ ≠ none)
    (hk : k + bytes.length ≤ b.last_ - b.out_) :
    ∃ r, write k bytes h b = some r ∧ r.thrown = none ∧ r.buffer = b ∧ Safe h b r ∧
      readable r.heap b = readable h b ∧ window r.heap b = Heap.splice (window h b) k bytes := by
  have hin := v.in_le
  have hout := v.out_le
  have hlast := v.last_le
  obtain ⟨p, hd⟩ := Option.ne_none_iff_exists'.1 hd
  obtain ⟨cs, hp, hl⟩ := v.block p hd
  have hst := Heap.store_eq hp (show b.out_ + k + bytes.length ≤ cs.length by omega)
  have hlen : (Heap.splice cs (b.out_ + k) bytes).length = b.end_ := by
    rw [Heap.length_splice (by omega), hl]
  have hnew : (h.alloc p b.alloc_ (Heap.splice cs (b.out_ + k) bytes)) p = some ⟨b.alloc_, _⟩ :=
    Heap.alloc_self
  have v' : Valid (h.alloc p b.alloc_ (Heap.splice cs (b.out_ + k) bytes)) b :=
    { v with
      block := fun q hq => by
        rw [hd] at hq
        cases hq
        exact ⟨_, hnew, hlen⟩ }
  refine ⟨_, by rw [write, hd, Option.bind_some, hst, Option.map_some], rfl, rfl,
    .rewrite hd hd v' hw, ?_, ?_⟩
  · simp only [readable, cells_of_block hd hnew, cells_of_block hd hp]
    exact Heap.take_drop_splice (by omega) (by omega)
  · simp only [window, cells_of_block hd hnew, cells_of_block hd hp]
    exact Heap.take_drop_splice_inside (by omega) hk (by omega)

theorem commit_eq (v : Valid h b) :
    commit n b = { b with out_ := b.out_ + min n (b.last_ - b.out_) } := by
  have hout := v.out_le
  have hlast := v.last_le
  have hend := v.end_lt
  rw [commit, Word.sub_of_le hout, Word.add_of_lt (by omega)]

theorem commit_spec (v : Valid h b) (w : Within b) :
    Safe h b { heap := h, buffer := commit n b } ∧
      readable h (commit n b) = readable h b ++ (window h b).take n ∧
      window h (commit n b) = (window h b).drop n := by
  have hin := v.in_le
  have hout := v.out_le
  have hlast := v.last_le
  rw [commit_eq v]
  have v' : Valid h { b with out_ := b.out_ + min n (b.last_ - b.out_) } :=
    { v with in_le := by simp only; omega, out_le := by simp only; omega }
  refine ⟨.offsets v' w rfl, ?_, ?_⟩
  · have hsum : b.out_ + min n (b.last_ - b.out_) - b.in_ =
        (b.out_ - b.in_) + min n (b.last_ - b.out_) := by omega
    have hoff : b.in_ + (b.out_ - b.in_) = b.out_ := by omega
    show ((cells h b).drop b.in_).take (b.out_ + min n (b.last_ - b.out_) - b.in_) = _
    rw [hsum, List.take_add, List.drop_drop, hoff, window, List.take_take]
    rfl
  · show ((cells h b).drop (b.out_ + min n (b.last_ - b.out_))).take
      (b.last_ - (b.out_ + min n (b.last_ - b.out_))) = _
    rw [window, List.drop_take, List.drop_drop]
    by_cases hnl : n ≤ b.last_ - b.out_
    · rw [Nat.min_eq_left hnl, Nat.sub_add_eq]
    · have h₁ : b.last_ - (b.out_ + min n (b.last_ - b.out_)) = 0 := by omega
      have h₂ : b.last_ - b.out_ - n = 0 := by omega
      rw [h₁, h₂, List.take_zero, List.take_zero]

theorem consume_eq (v : Valid h b) :
    consume n b = { b with in_ := b.in_ + min n (b.out_ - b.in_) } := by
  have hin := v.in_le
  have hout := v.out_le
  have hlast := v.last_le
  have hend := v.end_lt
  rw [consume, v.size_eq, Word.add_of_lt (by omega)]

theorem consume_spec (v : Valid h b) (w : Within b) :
    Safe h b { heap := h, buffer := consume n b } ∧
      readable h (consume n b) = (readable h b).drop n ∧
      window h (consume n b) = window h b := by
  have hin := v.in_le
  have hout := v.out_le
  rw [consume_eq v]
  have v' : Valid h { b with in_ := b.in_ + min n (b.out_ - b.in_) } :=
    { v with in_le := by simp only; omega }
  refine ⟨.offsets v' ?_ rfl, ?_, rfl⟩
  · unfold Within at w ⊢
    simp only
    omega
  · show ((cells h b).drop (b.in_ + min n (b.out_ - b.in_))).take
      (b.out_ - (b.in_ + min n (b.out_ - b.in_))) = _
    rw [readable, List.drop_take, List.drop_drop]
    by_cases hnl : n ≤ b.out_ - b.in_
    · rw [Nat.min_eq_left hnl, Nat.sub_add_eq]
    · have h₁ : b.out_ - (b.in_ + min n (b.out_ - b.in_)) = 0 := by omega
      have h₂ : b.out_ - b.in_ - n = 0 := by omega
      rw [h₁, h₂, List.take_zero, List.take_zero]

theorem clear_spec (v : Valid h b) :
    Safe h b { heap := h, buffer := clear b } ∧ readable h (clear b) = [] ∧
      window h (clear b) = [] := by
  have v' : Valid h (clear b) :=
    { v with in_le := Nat.le_refl _, out_le := Nat.le_refl _, last_le := Nat.zero_le _ }
  refine ⟨.offsets v' (Nat.zero_le _) rfl, readable_nil rfl, ?_⟩
  exact List.length_eq_zero_iff.1 v'.length_window

/-- An operation that keeps the readable bytes and perhaps the prepared ones. -/
structure Kept (h : Memory A) (b : Buffer A) (r : Result A) : Prop where
  safe : Safe h b r
  readable : readable r.heap r.buffer = readable h b
  rest : r.thrown = none ∧ window r.heap r.buffer = [] ∨ r.heap = h ∧ r.buffer = b

theorem Kept.refl (v : Valid h b) (w : Within b) :
    Kept h b { heap := h, buffer := b, thrown := e } :=
  ⟨.refl v w, rfl, .inr ⟨rfl, rfl⟩⟩

theorem window_nil (v : Valid h b) (hl : b.last_ = b.out_) : window h b = [] :=
  List.length_eq_zero_iff.1 (by rw [v.length_window, hl, Nat.sub_self])

theorem reserve_spec [DecidableEq A] (v : Valid h b) (w : Within b) (ho : o.Fits h) :
    ∃ r, reserve o n h b = some r ∧ Kept h b r := by
  have hle := v.size_le
  have hmlt := v.max_lt
  by_cases h₁ : b.max_ < n
  · exact ⟨_, if_pos h₁, .refl v w⟩
  by_cases h₂ : n ≤ b.end_
  · exact ⟨_, (if_neg h₁).trans (if_pos h₂), .refl v w⟩
  unfold reserve
  rw [if_neg h₁, if_neg h₂]
  cases o with
  | bad_alloc => exact ⟨_, rfl, .refl v w⟩
  | block p junk =>
    obtain ⟨cs, h₃, h₄, hs⟩ :=
      relocate_front junk v ho (by omega : b.size ≤ n) (by omega) (by omega)
    simp only [h₃, Option.bind_some, h₄, Option.map_some]
    obtain ⟨hsafe, hr⟩ := hs b.size none {} (Nat.le_refl _) (by omega) (v.size_le_max w)
    exact ⟨_, rfl, hsafe, hr, .inl ⟨rfl, window_nil hsafe.valid rfl⟩⟩

/-- The block goes back to the allocator. -/
theorem Safe.released (hd : b'.data_ = none) (v : Valid (release h b) b') (w : Within b') :
    Safe h b { heap := release h b, buffer := b', thrown := e, span := s } where
  valid := v
  within := w
  frame _ hq _ := release_of_ne hq
  fresh := .inr fun _ hq => by
    rw [hd] at hq
    cases hq
  freed _ hq _ := release_self hq

theorem Safe.destroy (v : Valid h b) :
    Safe h b { heap := release h b, buffer := reset b, thrown := e, span := s } :=
  .released rfl v.reset (Nat.zero_le _)

theorem shrink_to_fit_spec [DecidableEq A] (v : Valid h b) (w : Within b) (ho : o.Fits h) :
    ∃ r, shrink_to_fit o h b = some r ∧ Kept h b r := by
  have hle := v.size_le
  have hend := v.end_lt
  by_cases h₀ : b.size = 0
  · have hnil := readable_of_size_zero v h₀
    simp only [shrink_to_fit, if_pos h₀, destroy_eq v, Option.map_some]
    exact ⟨_, rfl, .destroy v, readable_reset.trans hnil.symm, .inl ⟨rfl, window_reset⟩⟩
  by_cases h₁ : b.size = b.end_ ∧ b.in_ = 0
  · exact ⟨_, (if_neg h₀).trans (if_pos h₁), .refl v w⟩
  by_cases h₂ : b.size = b.end_
  · simp only [shrink_to_fit, if_neg h₀, if_neg h₁, if_pos h₂]
    obtain ⟨h', hmove, hs⟩ := move_front v (v.isSome_iff.2 (by omega))
    rw [if_pos (by omega)] at hmove
    rw [hmove, Option.map_some]
    obtain ⟨hsafe, hr⟩ := hs b.size none {} (Nat.le_refl _) (by omega) (v.size_le_max w)
    exact ⟨_, rfl, hsafe, hr, .inl ⟨rfl, window_nil hsafe.valid rfl⟩⟩
  unfold shrink_to_fit
  simp only [if_neg h₀, if_neg h₁, if_neg h₂]
  cases o with
  | bad_alloc => exact ⟨_, rfl, .refl v w⟩
  | block p junk =>
    obtain ⟨cs, h₃, h₄, hs⟩ :=
      relocate_front junk v ho (Nat.le_refl b.size) (by omega) (by omega)
    obtain ⟨q, _, hd, hq, hl⟩ := v.data_of_pos (by omega)
    have hqp : q ≠ p := fun he => v.ne_fresh ho (he ▸ hd)
    have hfree : (h.alloc p b.alloc_ cs).dealloc b.alloc_ q b.end_ =
        some (release (h.alloc p b.alloc_ cs) b) := by
      rw [Heap.dealloc_eq ((Heap.alloc_of_ne hqp).trans hq) hl, release, hd]
    simp only [h₃, Option.bind_some, hd, hfree, Option.map_some]
    obtain ⟨hsafe, hr⟩ :=
      hs b.size none {} (Nat.le_refl _) (Nat.le_refl _) (v.size_le_max w)
    exact ⟨_, rfl, hsafe, hr, .inl ⟨rfl, window_nil hsafe.valid rfl⟩⟩

end Coio.FlatBuffer
