import Coio.FlatBuffer.Limit

namespace Coio.FlatBuffer
open Function (update)
set_option autoImplicit true

/-- The prepared bytes that are not committed yet. -/
def Buffer.rest (b : Buffer A) : Nat := Word.sub b.last_ b.out_

/-- The fields are values of `std::size_t`, whatever the buffer has been asked for. -/
structure Words (b : Buffer A) : Prop where
  max_lt : b.max_ < Word.modulus
  in_lt : b.in_ < Word.modulus
  out_lt : b.out_ < Word.modulus
  last_lt : b.last_ < Word.modulus
  end_lt : b.end_ < Word.modulus

variable {b other : Buffer A} {h : Memory A}

theorem Words.size_lt (hb : Words b) : b.size < Word.modulus :=
  Word.sub_lt hb.out_lt hb.in_lt

theorem Words.reset (hb : Words b) : Words (reset b) where
  max_lt := hb.max_lt
  in_lt := Word.modulus_pos
  out_lt := Word.modulus_pos
  last_lt := Word.modulus_pos
  end_lt := Word.modulus_pos

theorem Words.clear (hb : Words b) : Words (clear b) where
  max_lt := hb.max_lt
  in_lt := Word.modulus_pos
  out_lt := Word.modulus_pos
  last_lt := Word.modulus_pos
  end_lt := hb.end_lt

/-- The readable bytes at the front of a block. -/
theorem Words.front (hm : b.max_ < Word.modulus) (hlen : len < Word.modulus)
    (hlast : last < Word.modulus) (hcap : cap < Word.modulus) : Words (front b p len last cap) where
  max_lt := hm
  in_lt := Word.modulus_pos
  out_lt := hlen
  last_lt := hlast
  end_lt := hcap

theorem Words.rest_lt (hb : Words b) : b.rest < Word.modulus :=
  Word.sub_lt hb.last_lt hb.out_lt

theorem Words.min_lt (hb : Words b) : min n b.rest < Word.modulus :=
  Nat.lt_of_le_of_lt (Nat.min_le_right ..) hb.rest_lt

theorem Words.commit (hb : Words b) : Words (commit n b) :=
  { hb with out_lt := Word.add_lt hb.out_lt hb.min_lt }

theorem Words.consume (hb : Words b) : Words (consume n b) :=
  { hb with in_lt := Word.add_lt hb.in_lt (Nat.lt_of_le_of_lt (Nat.min_le_right ..) hb.size_lt) }

theorem Words.write (hb : Words b) (hr : write k bytes h b = some r) : Words r.buffer := by
  obtain ⟨_, _, hr⟩ := Option.bind_eq_some_iff.1 hr
  obtain ⟨_, _, rfl⟩ := Option.map_eq_some_iff.1 hr
  exact hb

variable [DecidableEq A]

theorem destroy_buffer (hd : destroy h b = some (h', b')) : b' = reset b := by
  rw [destroy] at hd
  cases hp : b.data_ with
  | none =>
    rw [hp] at hd
    cases hd
    rfl
  | some p =>
    rw [hp] at hd
    obtain ⟨_, _, he⟩ := Option.map_eq_some_iff.1 hd
    cases he
    rfl

/-- What `prepare` leaves of a buffer, and what it throws. -/
inductive Prepares (n : Nat) (b : Buffer A) : Buffer A → Option Exception → Prop
  | nothing : n = 0 → Prepares n b b none
  | throws (e : Exception) : Prepares n b b (some e)
  | behind : n ≠ 0 → Prepares n b { b with last_ := Word.add b.out_ n } none
  | front : n ≠ 0 →
      Prepares n b { b with in_ := 0, out_ := b.size, last_ := Word.add b.size n } none
  | grown (p : Nat) : n ≠ 0 → Prepares n b { reset b with
      data_ := some p, in_ := 0, out_ := b.size, last_ := Word.add b.size n
      end_ := grow (Word.add b.size n) b.max_ 64 (max b.end_ 512) } none

theorem prepare_cases (hr : prepare o n h b = some r) : Prepares n b r.buffer r.thrown := by
  rw [FlatBuffer.prepare] at hr
  by_cases h₀ : n = 0
  · rw [if_pos h₀] at hr
    cases hr
    exact .nothing h₀
  rw [if_neg h₀] at hr
  by_cases h₁ : b.data_.isSome ∧ n ≤ Word.sub b.end_ b.out_
  · rw [if_pos h₁] at hr
    cases hr
    exact .behind h₀
  rw [if_neg h₁] at hr
  by_cases h₂ : b.data_.isSome ∧ n ≤ Word.sub b.end_ b.size
  · simp only [if_pos h₂] at hr
    obtain ⟨_, _, rfl⟩ := Option.map_eq_some_iff.1 hr
    exact .front h₀
  simp only [if_neg h₂] at hr
  by_cases h₃ : Word.sub b.max_ b.size < n
  · rw [if_pos h₃] at hr
    cases hr
    exact .throws _
  rw [if_neg h₃] at hr
  cases o with
  | bad_alloc =>
    cases hr
    exact .throws _
  | block p junk =>
    obtain ⟨_, _, hr⟩ := Option.bind_eq_some_iff.1 hr
    obtain ⟨⟨_, b'⟩, hd, rfl⟩ := Option.map_eq_some_iff.1 hr
    obtain rfl := destroy_buffer hd
    exact .grown p h₀

theorem Words.prepare (hb : Words b) (hn : n < Word.modulus) (hr : prepare o n h b = some r) :
    Words r.buffer := by
  obtain ⟨_, buffer, thrown, _⟩ := r
  have hlen := hb.size_lt
  have hlast := Word.add_lt hlen hn
  cases prepare_cases hr with
  | nothing | throws => exact hb
  | behind => exact { hb with last_lt := Word.add_lt hb.out_lt hn }
  | front => exact { hb with in_lt := Word.modulus_pos, out_lt := hlen, last_lt := hlast }
  | grown p =>
    have hcap : max b.end_ 512 < Word.modulus := Nat.max_lt.2 ⟨hb.end_lt, by decide⟩
    exact { hb.reset with out_lt := hlen, last_lt := hlast, end_lt := grow_lt hlast hcap }

theorem Words.reserve (hb : Words b) (hn : n < Word.modulus) (hr : reserve o n h b = some r) :
    Words r.buffer := by
  unfold FlatBuffer.reserve at hr
  by_cases h₀ : b.max_ < n
  · rw [if_pos h₀] at hr
    cases hr
    exact hb
  rw [if_neg h₀] at hr
  by_cases h₁ : n ≤ b.end_
  · rw [if_pos h₁] at hr
    cases hr
    exact hb
  rw [if_neg h₁] at hr
  cases o with
  | bad_alloc =>
    cases hr
    exact hb
  | block p junk =>
    obtain ⟨h₁, _, hr⟩ := Option.bind_eq_some_iff.1 hr
    obtain ⟨⟨h₂, b'⟩, hd, rfl⟩ := Option.map_eq_some_iff.1 hr
    obtain rfl := destroy_buffer hd
    exact { hb.reset with out_lt := hb.size_lt, last_lt := hb.size_lt, end_lt := hn }

theorem Words.shrink_to_fit (hb : Words b) (hr : shrink_to_fit o h b = some r) :
    Words r.buffer := by
  unfold FlatBuffer.shrink_to_fit at hr
  have hlen := hb.size_lt
  by_cases h₀ : b.size = 0
  · simp only [if_pos h₀] at hr
    obtain ⟨⟨h₂, b'⟩, hd, rfl⟩ := Option.map_eq_some_iff.1 hr
    obtain rfl := destroy_buffer hd
    exact hb.reset
  simp only [if_neg h₀] at hr
  by_cases h₁ : b.size = b.end_ ∧ b.in_ = 0
  · rw [if_pos h₁] at hr
    cases hr
    exact hb
  rw [if_neg h₁] at hr
  by_cases h₂ : b.size = b.end_
  · rw [if_pos h₂] at hr
    obtain ⟨_, _, rfl⟩ := Option.map_eq_some_iff.1 hr
    exact { hb with in_lt := Word.modulus_pos, out_lt := hlen, last_lt := hlen }
  rw [if_neg h₂] at hr
  cases o with
  | bad_alloc =>
    cases hr
    exact hb
  | block p junk =>
    obtain ⟨_, _, hr⟩ := Option.bind_eq_some_iff.1 hr
    obtain ⟨_, _, hr⟩ := Option.bind_eq_some_iff.1 hr
    obtain ⟨_, _, rfl⟩ := Option.map_eq_some_iff.1 hr
    exact { hb with in_lt := Word.modulus_pos, out_lt := hlen, last_lt := hlen, end_lt := hlen }

variable {T : Traits A}

omit [DecidableEq A] in
theorem Words.copyConstruct (hb : Words other)
    (hr : FlatBuffer.copyConstruct T o h other = some r) : Words r.buffer := by
  unfold FlatBuffer.copyConstruct at hr
  have hlen := hb.size_lt
  have hnew (a : A) : Words ({ alloc_ := a, max_ := other.max_ } : Buffer A) :=
    ⟨hb.max_lt, Word.modulus_pos, Word.modulus_pos, Word.modulus_pos, Word.modulus_pos⟩
  by_cases h₀ : 0 < other.size
  · simp only [if_pos h₀] at hr
    cases o with
    | bad_alloc =>
      cases hr
      exact hnew _
    | block p junk =>
      obtain ⟨_, _, rfl⟩ := Option.map_eq_some_iff.1 hr
      have hb₀ := hnew (T.select_on_container_copy_construction other.alloc_)
      exact { hb₀ with out_lt := hlen, last_lt := hlen, end_lt := hlen }
  · simp only [if_neg h₀] at hr
    cases hr
    exact hnew _

theorem Words.assignBytes (hb : Words b) (ho : Words other)
    (hr : assignBytes o h b other = some r) : Words r.buffer := by
  unfold FlatBuffer.assignBytes at hr
  have hlen := ho.size_lt
  by_cases h₀ : b.end_ < other.size
  · simp only [if_pos h₀] at hr
    cases o with
    | bad_alloc =>
      cases hr
      exact hb
    | block p junk =>
      obtain ⟨⟨_, b'⟩, hd, hr⟩ := Option.bind_eq_some_iff.1 hr
      obtain ⟨_, _, rfl⟩ := Option.map_eq_some_iff.1 hr
      obtain rfl := destroy_buffer hd
      exact { hb.reset with out_lt := hlen, last_lt := hlen, end_lt := hlen }
  · simp only [if_neg h₀] at hr
    obtain ⟨_, _, rfl⟩ := Option.map_eq_some_iff.1 hr
    exact { hb with in_lt := Word.modulus_pos, out_lt := hlen, last_lt := hlen }

theorem Words.copyAssign (hb : Words b) (ho : Words other)
    (hr : copyAssign T o h b other = some r) : Words r.buffer := by
  unfold FlatBuffer.copyAssign at hr
  have hlen := ho.size_lt
  have hmax : other.max_ < Word.modulus := ho.max_lt
  by_cases h₀ : other.size = 0
  · simp only [if_pos h₀] at hr
    by_cases h₁ : T.propagate_on_container_copy_assignment ∧ b.alloc_ ≠ other.alloc_
    · rw [if_pos h₁] at hr
      obtain ⟨⟨_, b'⟩, hd, rfl⟩ := Option.map_eq_some_iff.1 hr
      obtain rfl := destroy_buffer hd
      exact { hb.reset with max_lt := hmax }
    · rw [if_neg h₁] at hr
      cases hr
      exact { hb.clear with max_lt := hmax }
  simp only [if_neg h₀] at hr
  by_cases h₁ : T.propagate_on_container_copy_assignment ∧ b.alloc_ ≠ other.alloc_
  · rw [if_pos h₁] at hr
    cases o with
    | bad_alloc =>
      cases hr
      exact hb
    | block p junk =>
      obtain ⟨_, _, hr⟩ := Option.bind_eq_some_iff.1 hr
      obtain ⟨⟨_, b'⟩, hd, rfl⟩ := Option.map_eq_some_iff.1 hr
      obtain rfl := destroy_buffer hd
      exact { hb.reset with max_lt := hmax, out_lt := hlen, last_lt := hlen, end_lt := hlen }
  · rw [if_neg h₁] at hr
    obtain ⟨r', hr', rfl⟩ := Option.map_eq_some_iff.1 hr
    have hr' := hb.assignBytes ho hr'
    split
    · exact { hr' with max_lt := hmax }
    · exact hr'

theorem Words.moveAssign (hb : Words b) (ho : Words other)
    (hr : moveAssign T o h b other = some (r, left)) : Words r.buffer ∧ Words left := by
  unfold FlatBuffer.moveAssign at hr
  by_cases h₀ : T.propagate_on_container_move_assignment
  · rw [if_pos h₀] at hr
    obtain ⟨_, _, he⟩ := Option.map_eq_some_iff.1 hr
    cases he
    exact ⟨⟨ho.max_lt, ho.in_lt, ho.out_lt, ho.last_lt, ho.end_lt⟩, ho.reset⟩
  rw [if_neg h₀] at hr
  by_cases h₁ : b.alloc_ = other.alloc_
  · rw [if_pos h₁] at hr
    obtain ⟨_, _, he⟩ := Option.map_eq_some_iff.1 hr
    cases he
    exact ⟨⟨ho.max_lt, ho.in_lt, ho.out_lt, ho.last_lt, ho.end_lt⟩, ho.reset⟩
  rw [if_neg h₁] at hr
  by_cases h₂ : other.size = 0
  · rw [if_pos h₂] at hr
    cases hr
    exact ⟨{ hb.clear with max_lt := ho.max_lt }, ho.clear⟩
  rw [if_neg h₂] at hr
  obtain ⟨r', hr', he⟩ := Option.map_eq_some_iff.1 hr
  have hr' := hb.assignBytes ho hr'
  split at he <;> cases he
  · exact ⟨{ hr' with max_lt := ho.max_lt }, ho.clear⟩
  · exact ⟨hr', ho⟩

variable [DecidableEq ι] {w : World ι A}

def World.Words (w : World ι A) : Prop := ∀ i b, w.objects i = some b → FlatBuffer.Words b

omit [DecidableEq A] in
theorem World.Words.set (hw : w.Words) (hv : ∀ b, v = some b → FlatBuffer.Words b) :
    World.Words ⟨h, update w.objects i v⟩ := by
  intro j c (hj : Function.update w.objects i v j = some c)
  by_cases hji : j = i
  · subst hji
    rw [Function.update_self] at hj
    exact hv c hj
  · rw [Function.update_of_ne hji] at hj
    exact hw j c hj

omit [DecidableEq A] in
theorem World.Words.set_some (hw : w.Words) (hb : FlatBuffer.Words b) :
    World.Words ⟨h, update w.objects i (some b)⟩ :=
  hw.set fun c hc => by
    cases hc
    exact hb

omit [DecidableEq A] in
theorem World.Words.put (hw : w.Words) (hr : FlatBuffer.Words r.buffer) :
    (w.put i r).world.Words := hw.set_some hr

omit [DecidableEq A] in
theorem World.Words.call (hw : w.Words) (he : w.call i f = some o)
    (hf : ∀ b r, w.objects i = some b → f w.heap b = some r → FlatBuffer.Words r.buffer) :
    o.world.Words := by
  obtain ⟨b, hb, he⟩ := Option.bind_eq_some_iff.1 he
  obtain ⟨r, hr, rfl⟩ := Option.map_eq_some_iff.1 he
  exact hw.put (hf b r hb hr)

omit [DecidableEq A] in
theorem World.Words.modify (hw : w.Words) (he : w.modify i f = some o)
    (hf : ∀ b, w.objects i = some b → FlatBuffer.Words (f b)) : o.world.Words := by
  obtain ⟨b, hb, rfl⟩ := Option.map_eq_some_iff.1 he
  exact hw.put (hf b hb)

/-- Whatever is asked of the buffers, the fields stay values of `std::size_t`. -/
theorem World.Words.exec (hw : w.Words) (ha : w.Admits T a) (he : w.exec T a = some o) :
    o.world.Words := by
  cases a with
  | construct i a m =>
    cases he
    exact hw.put ⟨ha.2, Word.modulus_pos, Word.modulus_pos, Word.modulus_pos, Word.modulus_pos⟩
  | copyConstruct i j ans =>
    obtain ⟨c, hc, he⟩ := Option.bind_eq_some_iff.1 he
    obtain ⟨r, hr, rfl⟩ := Option.map_eq_some_iff.1 he
    split
    · exact hw.put ((hw j c hc).copyConstruct hr)
    · exact hw
  | moveConstruct i j =>
    obtain ⟨c, hc, rfl⟩ := Option.map_eq_some_iff.1 he
    have hi : World.Words ⟨w.heap, update w.objects i (some c)⟩ := hw.set_some (hw j c hc)
    exact hi.set_some (hw j c hc).reset
  | copyAssign i j ans =>
    simp only [World.exec] at he
    split at he
    · cases he
      exact hw
    · obtain ⟨c, hc, he⟩ := Option.bind_eq_some_iff.1 he
      exact hw.call he fun b r hb hr => (hw i b hb).copyAssign (hw j c hc) hr
  | moveAssign i j ans =>
    simp only [World.exec] at he
    split at he
    · cases he
      exact hw
    · obtain ⟨b, hb, he⟩ := Option.bind_eq_some_iff.1 he
      obtain ⟨c, hc, he⟩ := Option.bind_eq_some_iff.1 he
      obtain ⟨⟨r, left⟩, hr, rfl⟩ := Option.map_eq_some_iff.1 he
      obtain ⟨hr, hleft⟩ := (hw i b hb).moveAssign (hw j c hc) hr
      have hi : World.Words ⟨r.heap, update w.objects i (some r.buffer)⟩ := hw.set_some hr
      exact hi.set_some hleft
  | swap i j =>
    obtain ⟨b, hb, he⟩ := Option.bind_eq_some_iff.1 he
    obtain ⟨c, hc, rfl⟩ := Option.map_eq_some_iff.1 he
    have hsw (x y : Buffer A) (hy : FlatBuffer.Words y) : FlatBuffer.Words (swapped T x y) := by
      unfold swapped
      split
      · exact hy
      · exact ⟨hy.max_lt, hy.in_lt, hy.out_lt, hy.last_lt, hy.end_lt⟩
    have hi : World.Words ⟨w.heap, update w.objects i (some (swapped T b c))⟩ :=
      hw.set_some (hsw b c (hw j c hc))
    exact hi.set_some (hsw c b (hw i b hb))
  | destruct i =>
    obtain ⟨b, hb, he⟩ := Option.bind_eq_some_iff.1 he
    obtain ⟨_, _, rfl⟩ := Option.map_eq_some_iff.1 he
    exact hw.set fun _ hb => by cases hb
  | prepare i n ans => exact hw.call he fun b r hb hr => (hw i b hb).prepare ha.2.1 hr
  | write i k bytes => exact hw.call he fun b r hb hr => (hw i b hb).write hr
  | commit i n => exact hw.modify he fun b hb => (hw i b hb).commit
  | consume i n => exact hw.modify he fun b hb => (hw i b hb).consume
  | clear i => exact hw.modify he fun b hb => (hw i b hb).clear
  | reserve i n ans => exact hw.call he fun b r hb hr => (hw i b hb).reserve ha.2.1 hr
  | shrink_to_fit i ans => exact hw.call he fun b r hb hr => (hw i b hb).shrink_to_fit hr

theorem World.RunsTo.words (hw : World.RunsTo T C w) : w.Words := by
  induction hw with
  | nil => exact fun _ _ hb => by cases hb
  | step _ ha _ he ih => exact ih.exec ha he

/-- What may be called between two calls of `prepare`. -/
inductive Later
  | commit (n : Nat)
  | consume (n : Nat)
  deriving DecidableEq, Repr

def Later.arg : Later → Nat
  | .commit n | .consume n => n

/-- The bytes that the commits among later calls add to `size()`. -/
def added : List Later → Buffer A → Int
  | [], _ => 0
  | .commit n :: later, b =>
    ((FlatBuffer.commit n b).size - b.size : Int) + added later (FlatBuffer.commit n b)
  | .consume n :: later, b => added later (FlatBuffer.consume n b)

/-- The bytes that the commits among later calls ask for. -/
def asked : List Later → Nat
  | [] => 0
  | .commit n :: later => n + asked later
  | .consume _ :: later => asked later

omit [DecidableEq A]

theorem Words.size_commit (hb : Words b) :
    (FlatBuffer.commit n b).size = Word.add b.size (min n b.rest) :=
  Word.add_sub_right_comm hb.out_lt hb.in_lt hb.min_lt

/-- A commit of prepared bytes changes `size()`, even where it wraps around. -/
theorem Words.size_commit_ne (hb : Words b) (hn : n ≠ 0) (hrest : b.rest ≠ 0) :
    (FlatBuffer.commit n b).size ≠ b.size := by
  have hmin := hb.min_lt (n := n)
  rw [hb.size_commit, Word.add]
  split <;> omega

theorem Words.rest_commit (hb : Words b) :
    (FlatBuffer.commit n b).rest = b.rest - min n b.rest := by
  rw [← Word.sub_of_le (Nat.min_le_right n b.rest)]
  exact Word.sub_add_eq hb.last_lt hb.out_lt hb.min_lt

theorem Words.size_consume (hb : Words b) :
    (FlatBuffer.consume n b).size = b.size - min n b.size := by
  rw [← Word.sub_of_le (Nat.min_le_right n b.size)]
  have hmin : min n b.size < Word.modulus :=
    Nat.lt_of_le_of_lt (Nat.min_le_right ..) hb.size_lt
  exact Word.sub_add_eq hb.out_lt hb.in_lt hmin

theorem rest_consume (n : Nat) (b : Buffer A) : (FlatBuffer.consume n b).rest = b.rest := rfl

/-- The commits add what they ask for, as far as it was prepared. -/
theorem Words.added_eq (hb : Words b) (hroom : b.size + b.rest < Word.modulus) :
    added later b = (min (asked later) b.rest : Nat) := by
  induction later generalizing b with
  | nil => simp [added, asked]
  | cons l later ih =>
    cases l with
    | commit n =>
      have hsize : (FlatBuffer.commit n b).size = b.size + min n b.rest := by
        rw [hb.size_commit, Word.add_of_lt (by omega)]
      have hleft := hb.rest_commit (n := n)
      rw [added, asked, ih hb.commit (by rw [hsize, hleft]; omega), hsize, hleft]
      omega
    | consume n =>
      have hsize := hb.size_consume (n := n)
      rw [added, asked, ih hb.consume (by rw [hsize, rest_consume]; omega), rest_consume]

/-- A commit of bytes that are prepared and do not fit. -/
theorem Words.added_wraps (hb : Words b) (hroom : Word.modulus ≤ b.size + b.rest) :
    added [.commit b.rest] b ≠ (b.rest : Nat) := by
  have hsize := hb.size_lt
  have hrest := hb.rest_lt
  rw [added, added, hb.size_commit, Nat.min_self, Word.add, if_neg (by omega)]
  omega

/-- What is prepared after a `prepare` that does not throw. -/
theorem Words.prepared [DecidableEq A] (hb : Words b) (hm : m < Word.modulus)
    (hr : FlatBuffer.prepare o m h b = some r) (ht : r.thrown = none) :
    r.buffer.size = b.size ∧ r.buffer.rest = if m = 0 then b.rest else m := by
  obtain ⟨_, buffer, thrown, _⟩ := r
  have hlen := hb.size_lt
  cases prepare_cases hr with
  | nothing h₀ =>
    rw [if_pos h₀]
    exact ⟨rfl, rfl⟩
  | throws => cases ht
  | behind h₀ =>
    rw [if_neg h₀]
    exact ⟨rfl, Word.add_sub_self hb.out_lt hm⟩
  | front h₀ | grown p h₀ =>
    rw [if_neg h₀]
    exact ⟨Word.sub_of_le (Nat.zero_le _), Word.add_sub_self hlen hm⟩

/-- The commits after a `prepare` add what they ask for and was prepared, exactly where bytes were
asked for, and fit into a `std::size_t` with the readable ones, or nothing was left of an earlier
`prepare`. Where no buffer has ever outgrown its `max_size()`, the bytes fit. -/
theorem commits_of_prepare [DecidableEq A] {T : Traits A} {w : World ι A}
    (hw : World.RunsTo T (fun _ _ => True) w) (hb : w.objects i = some b)
    (ha : w.Admits T (.prepare i m ans)) (hr : FlatBuffer.prepare ans m w.heap b = some r)
    (ht : r.thrown = none) :
    (∀ later : List Later, (∀ l ∈ later, l.arg < Word.modulus) →
      added later r.buffer = (min (asked later) m : Nat)) ↔
    (m ≠ 0 ∧ b.size + m < Word.modulus ∨ m = 0 ∧ b.last_ = b.out_) := by
  have hwords := hw.words i b hb
  have hnew := hwords.prepare ha.2.1 hr
  obtain ⟨hsize, hrest⟩ := hwords.prepared ha.2.1 hr ht
  by_cases h₀ : m = 0
  · rw [if_pos h₀] at hrest
    have hz : b.rest = 0 ↔ b.last_ = b.out_ := Word.sub_eq_zero hwords.out_lt
    constructor
    · intro hall
      refine .inr ⟨h₀, hz.1 ?_⟩
      have h₁ := hall [.commit 1] (by simp [Later.arg, Word.modulus])
      by_contra hne
      refine hnew.size_commit_ne (n := 1) (by omega) (by omega) ?_
      rw [added, added, h₀] at h₁
      simp [asked] at h₁
      omega
    · rintro (⟨hne, -⟩ | ⟨-, hlast⟩)
      · exact absurd h₀ hne
      intro later hl
      have hzero : r.buffer.rest = 0 := hrest.trans (hz.2 hlast)
      rw [hnew.added_eq (by have := hnew.size_lt; omega), hzero, h₀]
  · rw [if_neg h₀] at hrest
    constructor
    · intro hall
      refine .inl ⟨h₀, ?_⟩
      by_contra hge
      refine hnew.added_wraps (by omega) ?_
      rw [hall [.commit r.buffer.rest] (by simp [Later.arg, hnew.rest_lt]), hrest]
      simp [asked]
    · rintro (⟨-, hfit⟩ | ⟨hz, -⟩)
      · intro later hl
        rw [hnew.added_eq (by omega), hrest]
      · exact absurd hz h₀

/-- Ten bytes prepared in a new buffer. -/
theorem commits_of_prepare_ten : ∃ r : Result Unit,
    FlatBuffer.prepare (.block 0 fun _ => 0) 10 Heap.empty { alloc_ := () } = some r ∧
      ∀ later : List Later, (∀ l ∈ later, l.arg < Word.modulus) →
        added later r.buffer = (min (asked later) 10 : Nat) := by
  have h₁ := (World.RunsTo.nil (T := {}) (C := fun _ _ => True)).step (ι := Unit) (A := Unit)
    (a := .construct () () (Word.modulus - 1)) ⟨rfl, by decide⟩ trivial rfl
  have h₂ : FlatBuffer.prepare (.block 0 fun _ => 0) 10 Heap.empty { alloc_ := () } = some _ := rfl
  refine ⟨_, h₂, (commits_of_prepare h₁ (i := ()) rfl ?_ h₂ rfl).2 (.inl ⟨by decide, by decide⟩)⟩
  exact ⟨⟨_, rfl⟩, by decide, rfl⟩

/-- A `prepare` of nothing leaves the ten bytes prepared, and they can be committed. -/
theorem prepare_nothing : ¬ ∀ (w : World Unit Unit) (b : Buffer Unit) (m : Nat) (ans : Answer)
    (r : Result Unit), World.RunsTo {} (fun _ _ => True) w → w.objects () = some b →
      w.Admits {} (.prepare () m ans) → FlatBuffer.prepare ans m w.heap b = some r →
      r.thrown = none → ∀ later : List Later, (∀ l ∈ later, l.arg < Word.modulus) →
        added later r.buffer = (min (asked later) m : Nat) := by
  intro h
  have h₁ := (World.RunsTo.nil (T := {}) (C := fun _ _ => True)).step (ι := Unit) (A := Unit)
    (a := .construct () () (Word.modulus - 1)) ⟨rfl, by decide⟩ trivial rfl
  have h₂ := h₁.step (a := .prepare () 10 (.block 0 fun _ => 0)) ⟨⟨_, rfl⟩, by decide, rfl⟩
    trivial rfl
  have h₃ := h _ _ 0 .bad_alloc _ h₂ rfl ⟨⟨_, rfl⟩, by decide, trivial⟩ rfl rfl [.commit 5]
    (by decide)
  exact absurd h₃ (by decide)

end Coio.FlatBuffer
