import Coio.FlatBuffer.Operations

namespace Coio.FlatBuffer
set_option autoImplicit true

/-- The buffer of a result with the maximal size of another buffer. -/
def Result.limit (r : Result A) (m : Nat) : Result A :=
  { r with buffer := { r.buffer with max_ := m } }

/-- An operation after which a buffer has the readable bytes of another one, unless it throws. -/
structure Assigned (h : Memory A) (b other : Buffer A) (r : Result A) : Prop where
  safe : r.thrown = none → Safe h b r
  readable : r.thrown = none → readable r.heap r.buffer = readable h other
  window : r.thrown = none → window r.heap r.buffer = []
  unchanged : r.thrown ≠ none → r.heap = h ∧ r.buffer = b

theorem Assigned.throws (he : e ≠ none) :
    Assigned h b other { heap := h, buffer := b, thrown := e, span := s } where
  safe hn := absurd hn he
  readable hn := absurd hn he
  window hn := absurd hn he
  unchanged _ := ⟨rfl, rfl⟩

theorem Assigned.mk' {r : Result A} (hs : Safe h b r)
    (hr : FlatBuffer.readable r.heap r.buffer = FlatBuffer.readable h other)
    (hl : r.buffer.last_ = r.buffer.out_) (he : r.thrown = none) : Assigned h b other r where
  safe _ := hs
  readable _ := hr
  window _ := window_nil hs.valid hl
  unchanged hn := absurd he hn

variable {h : Memory A} {b other : Buffer A}

theorem valid_empty (hm : m < Word.modulus) : Valid h ({ alloc_ := a, max_ := m } : Buffer A) where
  in_le := Nat.le_refl _
  out_le := Nat.le_refl _
  last_le := Nat.le_refl _
  end_lt := Nat.zero_lt_of_lt hm
  max_lt := hm
  null := by simp
  block p hp := by cases hp

theorem copyConstruct_spec {T : Traits A} (v : Valid h other) (w : Within other)
    (ho : o.Fits h) :
    ∃ r b₀, copyConstruct T o h other = some r ∧ b₀.data_ = none ∧ Assigned h b₀ other r := by
  have hend := v.end_lt
  have hle := v.size_le
  by_cases hs : 0 < other.size
  · unfold copyConstruct
    simp only [if_pos hs]
    cases o with
    | bad_alloc => exact ⟨_, _, rfl, rfl, .throws (by simp)⟩
    | block p junk =>
      obtain ⟨cs, hcp, hlen, htake⟩ :=
        copyOut_eq (a := T.select_on_container_copy_construction other.alloc_) junk v ho
          (Nat.le_refl other.size)
      let b₀ : Buffer A :=
        { alloc_ := T.select_on_container_copy_construction other.alloc_, max_ := other.max_ }
      simp only [hcp, Option.map_some]
      have hv : Valid (release (h.alloc p b₀.alloc_ cs) b₀)
          (front b₀ p other.size other.size other.size) :=
        .front Heap.alloc_self hlen (Nat.le_refl _) (Nat.le_refl _) hs (by omega) v.max_lt
      have hw : Within (front b₀ p other.size other.size other.size) :=
        within_front (v.size_le_max w)
      refine ⟨_, b₀, rfl, rfl, .mk' (.relocate ho rfl hv hw) ?_ rfl rfl⟩
      exact (readable_front (b := b₀) Heap.alloc_self).trans htake
  · refine ⟨_, _, if_neg hs, rfl, .mk' (.refl (valid_empty v.max_lt) (Nat.zero_le _)) ?_ rfl rfl⟩
    have h₀ : other.size = 0 := by omega
    rw [readable_nil rfl, readable_of_size_zero v h₀]

/-- Two buffers that do not share a block. -/
def Apart (b other : Buffer A) : Prop := ∀ p, b.data_ = some p → other.data_ ≠ some p

theorem release_alloc_comm (hp : b.data_ ≠ some p) :
    (release h b).alloc p a cs = release (h.alloc p a cs) b := by
  cases hd : b.data_ with
  | none => simp only [release, hd]
  | some q =>
    have hqp : p ≠ q := by
      rintro rfl
      exact hp hd
    simp only [release, hd]
    exact Function.update_comm (Ne.symm hqp) ..

theorem assignBytes_spec [DecidableEq A] (v : Valid h b) (v' : Valid h other) (w' : Within other)
    (ha : Apart b other) (hs : 0 < other.size) (ho : o.Fits h) :
    ∃ r, assignBytes o h b other = some r ∧ r.span = {} ∧
      (r.thrown = none → Assigned h b other (r.limit other.max_)) ∧
      (r.thrown ≠ none → r.heap = h ∧ r.buffer = b) := by
  have hend := v.end_lt
  have hend' := v'.end_lt
  have hle' := v'.size_le
  have hmax := v'.size_le_max w'
  have hlen := v'.length_readable_eq_size
  by_cases hl : b.end_ < other.size
  · unfold assignBytes
    simp only [if_pos hl]
    cases o with
    | bad_alloc => exact ⟨_, rfl, rfl, fun hn => absurd hn (by simp), fun _ => ⟨rfl, rfl⟩⟩
    | block p junk =>
      have hp : b.data_ ≠ some p := v.ne_fresh ho
      have hf : ∀ q, other.data_ = some q →
          release (h.alloc p b.alloc_ ((List.range other.size).map junk)) b q = h q := by
        intro q hq
        have hqb : b.data_ ≠ some q := fun hb => ha q hb hq
        have hqp : q ≠ p := fun he => v'.ne_fresh ho (he ▸ hq)
        rw [release_of_ne hqb, Heap.alloc_of_ne hqp]
      simp only [destroy_eq (v.alloc ho), Option.bind_some, reset]
      rw [memcpy_eq (v'.frame hf) hs (release_alloc v ho _) (by simp), Option.map_some,
        readable_frame hf, release_alloc_comm hp, Heap.alloc_alloc]
      generalize hcs : Heap.splice ((List.range other.size).map junk) 0 (readable h other) = cs
      have hcl : cs.length = other.size := by
        rw [← hcs, Heap.length_splice] <;> simp [hlen]
      have hv : Valid (release (h.alloc p b.alloc_ cs) b)
          (front { b with max_ := other.max_ } p other.size other.size other.size) :=
        .front (release_alloc v ho cs) hcl (Nat.le_refl _) (Nat.le_refl _) hs (by omega) v'.max_lt
      have hw : Within (front { b with max_ := other.max_ } p other.size other.size other.size) :=
        within_front hmax
      refine ⟨_, rfl, rfl, fun _ => .mk' (.relocate ho rfl hv hw) ?_ rfl rfl, absurd rfl⟩
      refine (readable_front (b := { b with max_ := other.max_ }) (release_alloc v ho cs)).trans ?_
      rw [← hcs, ← hlen]
      exact Heap.take_splice_zero
  · obtain ⟨p, old, hd, hp, hol⟩ := v.data_of_pos (by omega)
    unfold assignBytes
    simp only [if_neg hl, hd]
    rw [memcpy_eq v' hs hp (by omega), Option.map_some]
    generalize hcs : Heap.splice old 0 (readable h other) = cs
    have hcl : cs.length = b.end_ := by
      rw [← hcs, Heap.length_splice] <;> omega
    have hv : Valid (h.alloc p b.alloc_ cs)
        (front { b with max_ := other.max_ } p other.size other.size b.end_) :=
      .front Heap.alloc_self hcl (Nat.le_refl _) (by omega) (by omega) hend v'.max_lt
    have hw : Within (front { b with max_ := other.max_ } p other.size other.size b.end_) :=
      within_front hmax
    refine ⟨_, rfl, rfl, fun _ => ?_, absurd rfl⟩
    simp only [Result.limit]
    refine .mk' (.rewrite hd rfl hv hw) ?_ rfl rfl
    refine (readable_front (b := { b with max_ := other.max_ }) Heap.alloc_self).trans ?_
    rw [← hcs, ← hlen]
    exact Heap.take_splice_zero

/-- An empty buffer keeps its block and takes the maximal size of another one. -/
theorem cleared_spec (v : Valid h b) (v' : Valid h other) :
    Safe h b { heap := h, buffer := { clear b with max_ := other.max_ } } :=
  .offsets
    { v with
      in_le := Nat.le_refl _, out_le := Nat.le_refl _, last_le := Nat.zero_le _
      max_lt := v'.max_lt }
    (Nat.zero_le _) rfl

theorem copyAssign_spec [DecidableEq A] {T : Traits A} (v : Valid h b) (v' : Valid h other)
    (w' : Within other) (ha : Apart b other) (ho : o.Fits h) :
    ∃ r, copyAssign T o h b other = some r ∧ Assigned h b other r := by
  have hend' := v'.end_lt
  have hle' := v'.size_le
  by_cases h₀ : other.size = 0
  · have hnil := readable_of_size_zero v' h₀
    by_cases hp : T.propagate_on_container_copy_assignment ∧ b.alloc_ ≠ other.alloc_
    · simp only [copyAssign, if_pos h₀, if_pos hp, destroy_eq v, Option.map_some]
      have hv : Valid (release h b) { alloc_ := other.alloc_, max_ := other.max_ } :=
        valid_empty v'.max_lt
      exact ⟨_, rfl, .mk' (.released rfl hv (Nat.zero_le _)) (hnil ▸ readable_nil rfl) rfl rfl⟩
    · refine ⟨_, (if_pos h₀).trans (if_neg hp), ?_⟩
      exact .mk' (cleared_spec v v') (hnil ▸ readable_nil rfl) rfl rfl
  have hs : 0 < other.size := by omega
  by_cases hp : T.propagate_on_container_copy_assignment ∧ b.alloc_ ≠ other.alloc_
  · unfold copyAssign
    simp only [if_neg h₀, if_pos hp]
    cases o with
    | bad_alloc => exact ⟨_, rfl, .throws (by simp)⟩
    | block p junk =>
      obtain ⟨cs, hcp, hlen, htake⟩ :=
        copyOut_eq (a := other.alloc_) junk v' ho (Nat.le_refl other.size)
      let b₁ : Buffer A := { b with alloc_ := other.alloc_, max_ := other.max_ }
      simp only [hcp, Option.bind_some, destroy_eq (v.alloc ho), Option.map_some]
      have hnew := release_alloc (a := other.alloc_) v ho cs
      have hv : Valid (release (h.alloc p other.alloc_ cs) b)
          (front b₁ p other.size other.size other.size) :=
        .front hnew hlen (Nat.le_refl _) (Nat.le_refl _) hs (by omega) v'.max_lt
      have hw : Within (front b₁ p other.size other.size other.size) :=
        within_front (v'.size_le_max w')
      refine ⟨_, rfl, .mk' (.relocate ho rfl hv hw) ?_ rfl rfl⟩
      exact (readable_front (b := b₁) hnew).trans htake
  · simp only [copyAssign, if_neg h₀, if_neg hp]
    obtain ⟨r, hr, hspan, hok, hno⟩ := assignBytes_spec v v' w' ha hs ho
    rw [hr, Option.map_some]
    refine ⟨_, rfl, ?_⟩
    by_cases he : r.thrown = none
    · rw [if_pos he]
      exact hok he
    · rw [if_neg he]
      exact ⟨fun hn => absurd hn he, fun hn => absurd hn he, fun hn => absurd hn he, hno⟩

/-- A move assignment takes the block of the other buffer over, or copies its bytes. -/
theorem moveAssign_spec [DecidableEq A] {T : Traits A} (v : Valid h b) (v' : Valid h other)
    (w' : Within other) (ha : Apart b other) (ho : o.Fits h) :
    ∃ r left, moveAssign T o h b other = some (r, left) ∧
      (r = { heap := release h b, buffer := other } ∧ left = reset other ∨
        Assigned h b other r ∧ (r.thrown = none → left = clear other) ∧
          (r.thrown ≠ none → left = other)) := by
  by_cases hp : T.propagate_on_container_move_assignment
  · simp only [moveAssign, if_pos hp, destroy_eq v, Option.map_some]
    exact ⟨_, _, rfl, .inl ⟨rfl, rfl⟩⟩
  by_cases he : b.alloc_ = other.alloc_
  · simp only [moveAssign, if_neg hp, if_pos he, destroy_eq v, Option.map_some]
    refine ⟨_, _, rfl, .inl ⟨?_, rfl⟩⟩
    simp only [steal_from, reset, he]
  by_cases h₀ : other.size = 0
  · have hnil := readable_of_size_zero v' h₀
    refine ⟨_, _, (if_neg hp).trans ((if_neg he).trans (if_pos h₀)), .inr ?_⟩
    exact ⟨.mk' (cleared_spec v v') (hnil ▸ readable_nil rfl) rfl rfl, fun _ => rfl, absurd rfl⟩
  · simp only [moveAssign, if_neg hp, if_neg he, if_neg h₀]
    obtain ⟨r, hr, hspan, hok, hno⟩ := assignBytes_spec v v' w' ha (by omega) ho
    rw [hr, Option.map_some]
    by_cases hn : r.thrown = none
    · rw [if_pos hn]
      exact ⟨_, _, rfl, .inr ⟨hok hn, fun _ => rfl, absurd hn⟩⟩
    · rw [if_neg hn]
      refine ⟨_, _, rfl, .inr ⟨?_, fun h => absurd h hn, fun _ => rfl⟩⟩
      exact ⟨fun h => absurd h hn, fun h => absurd h hn, fun h => absurd h hn, hno⟩

end Coio.FlatBuffer
