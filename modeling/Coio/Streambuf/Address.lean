import Coio.Streambuf.Failure

namespace Coio.Streambuf
set_option autoImplicit true

/-- The pointers of a `std::streambuf` as addresses. -/
structure Pointers where
  eback : Nat
  gptr : Nat
  egptr : Nat
  pptr : Nat
  epptr : Nat
  deriving DecidableEq, Repr

/-- The pointers of a buffer whose bytes are at `base`. -/
def Buffer.pointers (s : Buffer) (base : Nat) : Pointers :=
  ⟨base, base + s.gptr, base + s.egptr, base + s.pptr, base + s.epptr⟩

/-- The address `p` moved by `d`. -/
def move (p : Nat) (d : Int) : Nat := ((p + d) % Word.modulus).toNat

namespace Pointers

def size (p : Pointers) : Nat := Word.sub p.pptr p.gptr

/-- The space that can be committed. -/
def prepared (p : Pointers) : Nat := Word.sub p.epptr p.pptr

def commit (n : Nat) (p : Pointers) : Pointers :=
  let n := min n (Word.sub p.epptr p.pptr)
  let pptr := move p.pptr (int n)
  { p with egptr := pptr, pptr := pptr }

/-- The address `front` is `&buffer_[0]`. -/
def consume (front n : Nat) (p : Pointers) : Pointers :=
  let p := if p.egptr < p.pptr then { p with eback := front, egptr := p.pptr } else p
  let n := if p.pptr < Word.add p.gptr n then Word.sub p.pptr p.gptr else n
  { p with gptr := move p.gptr (int n) }

/-- The pointers are in order and belong to one block. -/
structure Ordered (p : Pointers) : Prop where
  get_end : p.gptr ≤ p.egptr
  end_put : p.egptr ≤ p.pptr
  put_end : p.pptr ≤ p.epptr
  lt : p.epptr < Word.modulus
  block : p.epptr - p.gptr < 2 ^ 63

/-- What `commit` is for. -/
def Commits (p : Pointers) (n : Nat) : Prop :=
  ((p.commit n).size : Int) = p.size + min n p.prepared

/-- What `consume` is for. -/
def Consumes (front : Nat) (p : Pointers) (n : Nat) : Prop :=
  ((p.consume front n).size : Int) = p.size - min n p.size ∧
    p.gptr ≤ (p.consume front n).gptr ∧ (p.consume front n).gptr ≤ (p.consume front n).pptr

instance : Decidable (Commits p n) := inferInstanceAs (Decidable (_ = _))
instance : Decidable (Consumes front p n) := inferInstanceAs (Decidable (_ ∧ _))

/-- The bytes to commit can be counted with an `int`. -/
def CommitFits (p : Pointers) (n : Nat) : Prop := min n p.prepared < 2 ^ 31

/-- The bytes to consume can be counted with an `int`, and `gptr() + n` does not wrap around; where
it does, the low half of `n` happens to be `size()`. -/
def ConsumeFits (p : Pointers) (n : Nat) : Prop :=
  p.gptr + n < Word.modulus ∧ min n p.size < 2 ^ 31 ∨
    Word.modulus ≤ p.gptr + n ∧ n % 2 ^ 32 = p.size ∧ p.size < 2 ^ 31

instance : Decidable (CommitFits p n) := inferInstanceAs (Decidable (_ < _))
instance : Decidable (ConsumeFits p n) := inferInstanceAs (Decidable (_ ∨ _))

theorem move_lt (p : Nat) (d : Int) : move p d < Word.modulus := by
  have hpos : (0 : Int) < Word.modulus := by decide
  have hlt := Int.emod_lt_of_pos (p + d) hpos
  have hge := Int.emod_nonneg (p + d) (Int.ne_of_gt hpos)
  rw [move]
  omega

theorem move_eq_iff (hp : p + k < Word.modulus) (hd : -2 ^ 63 ≤ d) (hd' : d < 2 ^ 63)
    (hk : k < 2 ^ 63) : move p d = p + k ↔ d = k := by
  simp only [move, Word.modulus] at hp ⊢
  omega

theorem int_bounds (n : Nat) : -2 ^ 31 ≤ int n ∧ int n < 2 ^ 31 := by
  rw [int]
  split <;> omega

theorem int_eq_iff (hk : k < 2 ^ 63) : int k = k ↔ k < 2 ^ 31 := by
  have hbounds := int_bounds k
  refine ⟨fun h => by omega, fun h => int_of_lt h⟩

theorem int_eq_of_mod {k : Nat} : int n = k ↔ n % 2 ^ 32 = k ∧ k < 2 ^ 31 := by
  rw [int]
  split <;> omega

variable {p : Pointers}

theorem Ordered.size_eq (o : Ordered p) : p.size = p.pptr - p.gptr :=
  Word.sub_of_le (Nat.le_trans o.get_end o.end_put)

theorem Ordered.prepared_eq (o : Ordered p) : p.prepared = p.epptr - p.pptr :=
  Word.sub_of_le o.put_end

/-- `commit` is right exactly where the number is an `int`. -/
theorem Ordered.commit_iff (o : Ordered p) (n : Nat) : p.Commits n ↔ p.CommitFits n := by
  have hget := Nat.le_trans o.get_end o.end_put
  have hput := o.put_end
  have hlt := o.lt
  have hblock := o.block
  have hsize := o.size_eq
  have hprepared := o.prepared_eq
  have hbounds := int_bounds (min n p.prepared)
  have hk : min n p.prepared < 2 ^ 63 := by omega
  have hmove := move_eq_iff (p := p.pptr) (k := min n p.prepared) (by omega)
    (by omega : -2 ^ 63 ≤ int (min n p.prepared)) (by omega) hk
  have hmlt := move_lt p.pptr (int (min n p.prepared))
  rw [CommitFits, ← int_eq_iff hk, ← hmove]
  have hafter : (p.commit n).size = Word.sub (move p.pptr (int (min n p.prepared))) p.gptr := rfl
  rw [Commits, hafter, Word.sub]
  split <;> omega

/-- Where `consume` leaves the get pointer. -/
theorem consume_gptr (front n : Nat) (p : Pointers) :
    (p.consume front n).gptr = move p.gptr (int
      (if p.pptr < Word.add p.gptr n then p.size else n)) ∧
    (p.consume front n).pptr = p.pptr := by
  simp only [consume]
  split <;> exact ⟨rfl, rfl⟩

/-- `consume` is right when it moves the get pointer by as many bytes as there are. -/
theorem Ordered.consumes_iff (o : Ordered p) (front n : Nat) :
    p.Consumes front n ↔ (p.consume front n).gptr = p.gptr + min n p.size := by
  have hget := Nat.le_trans o.get_end o.end_put
  have hsize := o.size_eq
  obtain ⟨-, hput⟩ := consume_gptr front n p
  have hafter : (p.consume front n).size = Word.sub p.pptr (p.consume front n).gptr := by
    rw [size, hput]
  rw [Consumes, hafter, hput, Word.sub]
  split <;> omega

theorem Ordered.consume_iff (o : Ordered p) (front : Nat) (hn : n < Word.modulus) :
    p.Consumes front n ↔ p.ConsumeFits n := by
  have hget := Nat.le_trans o.get_end o.end_put
  have hput := o.put_end
  have hlt := o.lt
  have hblock := o.block
  have hsize := o.size_eq
  rw [o.consumes_iff, (consume_gptr front n p).1]
  have hmove {k m : Nat} (hk : p.gptr + k < Word.modulus) (hk' : k < 2 ^ 63) :
      move p.gptr (int m) = p.gptr + k ↔ int m = k := by
    have hbounds := int_bounds m
    exact move_eq_iff hk (by omega) (by omega) hk'
  rw [hmove (by omega) (by omega), ConsumeFits]
  by_cases hwrap : p.gptr + n < Word.modulus
  · rw [Word.add_of_lt hwrap]
    have hmin : (if p.pptr < p.gptr + n then p.size else n) = min n p.size := by
      split <;> omega
    rw [hmin, int_eq_iff (by omega)]
    omega
  · have hsum : ¬ p.pptr < Word.add p.gptr n := by
      rw [Word.add, if_neg hwrap]
      omega
    have hmin : min n p.size = p.size := by omega
    rw [if_neg hsum, hmin, int_eq_of_mod]
    omega

theorem consume_epptr (front n : Nat) (p : Pointers) : (p.consume front n).epptr = p.epptr := by
  simp only [consume]
  split <;> rfl

/-- A commit that fits keeps the order. -/
theorem Ordered.commit (o : Ordered p) (h : p.CommitFits n) : (p.commit n).Ordered := by
  have hget := Nat.le_trans o.get_end o.end_put
  have hput := o.put_end
  have hlt := o.lt
  have hblock := o.block
  have hprepared := o.prepared_eq
  have hmove : move p.pptr (int (min n p.prepared)) = p.pptr + min n p.prepared := by
    rw [int_of_lt h]
    exact (move_eq_iff (by omega) (by omega) (by omega) (by omega)).2 rfl
  have hcommit : p.commit n =
      { p with
        egptr := move p.pptr (int (min n p.prepared)),
        pptr := move p.pptr (int (min n p.prepared)) } := rfl
  rw [hcommit, hmove]
  exact ⟨by simp only; omega, Nat.le_refl _, by simp only; omega, hlt, o.block⟩

/-- So does a consume that fits. -/
theorem Ordered.consume (o : Ordered p) (hn : n < Word.modulus) (h : p.ConsumeFits n) :
    (p.consume front n).Ordered := by
  have hget := Nat.le_trans o.get_end o.end_put
  have hseen := o.end_put
  have hsize := o.size_eq
  have hput := o.put_end
  have hblock := o.block
  have hgptr := (o.consumes_iff front n).1 ((o.consume_iff front hn).2 h)
  have hpptr := (consume_gptr front n p).2
  have hepptr := consume_epptr front n p
  have hegptr : (p.consume front n).egptr = p.pptr := by
    simp only [Pointers.consume]
    split
    · rfl
    · omega
  exact ⟨by omega, by omega, by omega, hepptr ▸ o.lt, by omega⟩

end Pointers

/-- The bytes of a buffer are at `base`. -/
def Placed (base : Nat) (s : Buffer) : Prop := base + s.buffer_.length < Word.modulus

instance : Decidable (Placed base s) := inferInstanceAs (Decidable (_ < _))

/-- The other operations, whose bytes are written into the span that `prepare` has given. -/
def Op.Plain (s : Buffer) : Op → Prop
  | .write k bytes => k + bytes.length ≤ s.epptr - s.pptr
  | .commit _ | .consume _ => False
  | _ => True

/-- The buffer `t` is the buffer `s` with its pointers moved to `p`. -/
structure Repointed (base : Nat) (s : Buffer) (p : Pointers) (t : Buffer) : Prop where
  pointers : t.pointers base = p
  buffer_ : t.buffer_ = s.buffer_
  max_size_ : t.max_size_ = s.max_size_

/-- The buffers, at their addresses, that operations reach whose counts fit, also those that have
thrown. The bytes may move when there get more of them. -/
inductive Reaches (max_size : Nat) : Nat → Buffer → Prop
  | init : Placed base (construct max_size) → Reaches max_size base (construct max_size)
  | call (op : Op) (r : Result) : Reaches max_size base s → op.Plain s → op.call s = some r →
      Placed base' r.buf → (r.buf.buffer_.length ≤ s.buffer_.length → base' = base) →
      Reaches max_size base' r.buf
  | commit : Reaches max_size base s → n < Word.modulus → (s.pointers base).CommitFits n →
      Repointed base s ((s.pointers base).commit n) t → Reaches max_size base t
  | consume : Reaches max_size base s → n < Word.modulus → (s.pointers base).ConsumeFits n →
      Repointed base s ((s.pointers base).consume base n) t → Reaches max_size base t

/-- The pointers of a buffer at its address are in order. -/
structure Steady (base : Nat) (s : Buffer) : Prop where
  valid : Valid s
  length : s.buffer_.length < 2 ^ 63
  placed : Placed base s

theorem Steady.ordered (h : Steady base s) : (s.pointers base).Ordered := by
  obtain ⟨⟨hget, hend, hput, hlen, -, -⟩, hlength, hplaced⟩ := h
  unfold Placed at hplaced
  constructor <;> simp only [Buffer.pointers] <;> omega

theorem Steady.bounded (h : Steady base s) : Bounded s := by
  obtain ⟨⟨hget, hend, hput, hlen, -, hlt⟩, hlength, -⟩ := h
  exact ⟨by omega, hend, hput, hlen, hlength, hlt⟩

theorem Steady.call (h : Steady base s) {op : Op} (hop : op.Plain s) (hr : op.call s = some r)
    (hp : Placed base' r.buf) : Steady base' r.buf := by
  have v := h.valid
  have b := h.bounded
  have hadmits : op.Admits s := by
    cases op with
    | commit | consume => exact hop.elim
    | _ => exact hop
  rcases b.call hr with ⟨ht, hb⟩ | ⟨-, hget, hsame | hmoved⟩
  · obtain ⟨r', hr', hl⟩ := v.lands op hadmits
    obtain rfl := Option.some.inj (hr.symm.trans hr')
    exact ⟨(hl ht).valid, hb.length, hp⟩
  · rw [hsame.2] at hp ⊢
    exact ⟨v, h.length, hp⟩
  · have hb : Bounded (moved s) := b.of_moved hget
    rw [hmoved] at hp ⊢
    exact ⟨⟨v.get_end, v.end_put, v.put_end, hb.fits, v.end_max, v.max_lt⟩, hb.length, hp⟩

/-- Pointers that stay in order over the same bytes. -/
theorem Steady.repoint (h : Steady base s) (ht : Repointed base s p t) (ho : p.Ordered)
    (he : p.epptr = base + s.epptr) : Steady base t := by
  obtain ⟨rfl, hbytes, hmax⟩ := ht
  have hend := h.valid.end_max
  have hlen := h.valid.end_length
  obtain ⟨hget, hseen, hput, -, -⟩ := ho
  simp only [Buffer.pointers] at hget hseen hput he
  refine ⟨⟨by omega, by omega, by omega, ?_, ?_, ?_⟩, ?_, ?_⟩
  · rw [hbytes]
    omega
  · rw [hmax]
    omega
  · rw [hmax]
    exact h.valid.max_lt
  · rw [hbytes]
    exact h.length
  · rw [Placed, hbytes]
    exact h.placed

theorem Reaches.steady (hm : max_size < 2 ^ 64) (h : Reaches max_size base s) : Steady base s := by
  induction h with
  | init hp => exact ⟨valid_construct hm, (bounded_construct hm).length, hp⟩
  | call _ _ _ hop hr hp _ ih => exact ih.call hop hr hp
  | commit _ _ hfits ht ih => exact ih.repoint ht (ih.ordered.commit hfits) rfl
  | consume _ hn hfits ht ih =>
    exact ih.repoint ht (ih.ordered.consume hn hfits) (Pointers.consume_epptr ..)

/-- The accounting is right, exactly where the counts fit, after every sequence of operations whose
counts have fitted. -/
theorem streambuf_accounts (hm : max_size < 2 ^ 64) (h : Reaches max_size base s)
    (hn : n < 2 ^ 64) :
    ((s.pointers base).Commits n ↔ (s.pointers base).CommitFits n) ∧
      ((s.pointers base).Consumes base n ↔ (s.pointers base).ConsumeFits n) := by
  have ho := (h.steady hm).ordered
  exact ⟨ho.commit_iff n, ho.consume_iff base hn⟩

/-- Three characters are committed, then two and one of them are consumed. -/
theorem streambuf_accounts_three : ∃ s, Reaches 16 4096 s ∧ s.size = 3 ∧
    (s.pointers 4096).Commits 2 ∧ (s.pointers 4096).Consumes 4096 1 := by
  have h₁ : Reaches 16 4096 (construct 16) := .init (by decide)
  have h₂ : Reaches 16 4096 ⟨16, List.replicate 16 0, 0, 3, 3, 16⟩ :=
    h₁.commit (n := 3) (by decide) (by decide) ⟨by decide, rfl, rfl⟩
  have h₃ := streambuf_accounts (n := 2) (by decide) h₂ (by decide)
  have h₄ := streambuf_accounts (n := 1) (by decide) h₂ (by decide)
  exact ⟨_, h₂, by decide, h₃.1.2 (by decide), h₄.2.2 (by decide)⟩

/-- To consume as much as a `std::size_t` can say moves the get pointer of a new buffer back. -/
theorem streambuf_miscounts : ¬ ∀ base s n, Reaches 16 base s → n < 2 ^ 64 →
    (s.pointers base).Commits n ∧ (s.pointers base).Consumes base n := by
  intro h
  have h₁ : Reaches 16 4096 (construct 16) := .init (by decide)
  have h₂ := (h 4096 (construct 16) (2 ^ 64 - 1) h₁ (by decide)).2
  exact absurd h₂ (by decide)

end Coio.Streambuf
