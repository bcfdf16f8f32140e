import Coio.InplaceVector.Edits

namespace Coio.InplaceVector
set_option autoImplicit true

section Resize

variable {α : Type} {C : Capacity} {xs : List α} {throws : Nat → Bool}

/-- What both forms of `resize` do when the vector does not shrink. -/
theorem resize_grow_iff {value : Arg α} (hv : value.of xs = some v) (hle : xs.length ≤ count)
    (hc : count ≤ C.N) (f : Option Nat → Call α Unit) (hf : ∀ p, f (some p) = pure ()) :
    (try_emplace_back_n_ C (Word.sub count xs.length) value never >>= f) (ofList xs) =
        some (.ok (), ofList (xs.take count ++ List.replicate (count - xs.length) v)) ↔
      ¬ (count = 0 ∧ xs = []) := by
  rw [Word.sub_of_le hle, List.take_of_length_le hle]
  by_cases hnone : count = 0 ∧ xs = []
  · obtain ⟨rfl, rfl⟩ := hnone
    refine iff_of_false ?_ fun h => h ⟨rfl, rfl⟩
    rw [List.length_nil, Nat.sub_self, bind_none try_emplace_nothing]
    exact nofun
  · refine iff_of_true ?_ hnone
    have hpos : 0 < xs.length + (count - xs.length) := by
      rw [Nat.pos_iff_ne_zero]
      intro h0
      exact hnone ⟨by omega, List.length_eq_zero_iff.1 (by omega)⟩
    rw [bind_ok (try_emplace_ok hv (by omega) hpos fun _ _ => rfl), hf]
    rfl

theorem resize_iff (init : α) (hc : count ≤ C.N) :
    resize C count init never (ofList xs) =
        some (.ok (), ofList (xs.take count ++ List.replicate (count - xs.length) init)) ↔
      ¬ (count = 0 ∧ xs = []) := by
  rw [resize, if_neg (Nat.not_lt_of_le hc), size_bind, ofList_size]
  by_cases hle : xs.length ≤ count
  · rw [if_pos hle]
    have hinit : (Arg.value init).of xs = some init := rfl
    exact resize_grow_iff hinit hle hc _ fun _ => rfl
  · have hlt := Nat.lt_of_not_le hle
    have herase := erase_range_at (Nat.le_of_lt hlt) (Nat.le_refl xs.length)
    rw [List.drop_length, List.append_nil] at herase
    refine iff_of_true ?_ fun h => by simp [h.2] at hlt
    rw [if_neg hle, bind_ok herase, Nat.sub_eq_zero_of_le (Nat.le_of_lt hlt)]
    simp

/-- A shrinking `resize` with a value leaves the size as it was. -/
theorem resize_value_iff {value : Arg α} (hv : value.of xs = some v) (hc : count ≤ C.N) :
    resize_value C count value never (ofList xs) =
        some (.ok (), ofList (xs.take count ++ List.replicate (count - xs.length) v)) ↔
      xs.length ≤ count ∧ ¬ (count = 0 ∧ xs = []) := by
  rw [resize_value, if_neg (Nat.not_lt_of_le hc), size_bind, ofList_size]
  by_cases hle : xs.length ≤ count
  · rw [if_pos hle, resize_grow_iff hv hle hc _ fun _ => rfl]
    exact (and_iff_right hle).symm
  · refine iff_of_false ?_ fun h => hle h.1
    have hlt := Nat.lt_of_not_le hle
    have hlen : (xs.take count).length = count := List.length_take_of_le (Nat.le_of_lt hlt)
    have hd := destroy_holding (xs.take count) (xs.drop count) xs.length
    rw [List.take_append_drop, List.length_drop, hlen, holding_length] at hd
    rw [if_neg hle, hd]
    intro h
    have hsize := congrArg Vec.cur_size_ (congrArg Prod.snd (Option.some.inj h))
    simp only [holding_size, ofList_size, List.length_append, hlen, List.length_replicate] at hsize
    omega

end Resize

section Assign

variable {α : Type} {C : Capacity} {xs : List α}

theorem Arg.of_assigned {value : Arg α} (hv : value.of xs = some v) (i : Nat) :
    value.of (List.replicate i v ++ xs.drop i) = some v := by
  cases value with
  | value w => exact hv
  | element j =>
    simp only [Arg.of] at hv ⊢
    by_cases hj : j < i
    · rw [List.getElem?_append_left (by simpa using hj), List.getElem?_replicate, if_pos hj]
    · rw [List.getElem?_append_right (by simpa using Nat.le_of_not_lt hj), List.length_replicate,
        List.getElem?_drop, Nat.add_sub_cancel' (Nat.le_of_not_lt hj), hv]

/-- The first `i` elements are copies of the value, and the others are the old ones. -/
theorem assignLoop_spec {value : Arg α} (hv : value.of xs = some v) (k : Nat) :
    ∀ i, i + k ≤ C.N →
      assignLoop C value never xs.length k i (ofList (List.replicate i v ++ xs.drop i)) =
        some (.ok (), ofList (List.replicate (i + k) v ++ xs.drop (i + k))) := by
  induction k with
  | zero =>
    intro i _
    rfl
  | succ k ih =>
    intro i hN
    have hrest := ih (i + 1) (by omega)
    rw [show i + 1 + k = i + (k + 1) by omega] at hrest
    have hv' := Arg.of_assigned hv i
    rw [assignLoop]
    by_cases hi : i < xs.length
    · have hread := Arg.read_holding hv' [] (List.replicate i v ++ xs.drop i).length
      rw [List.append_nil, holding_length] at hread
      have hassign := assign_at_holding (List.replicate i v) (xs.drop (i + 1)) xs[i] v
        (List.replicate i v ++ xs.drop i).length
      rw [List.length_replicate, ← List.drop_eq_getElem_cons hi, holding_length] at hassign
      have hnext : holding (List.replicate i v ++ v :: xs.drop (i + 1))
          (List.replicate i v ++ xs.drop i).length =
            ofList (List.replicate (i + 1) v ++ xs.drop (i + 1)) := by
        rw [ofList, List.replicate_succ', List.append_assoc, List.singleton_append]
        congr 1
        simp only [List.length_append, List.length_cons, List.length_drop, List.length_replicate]
        omega
      rw [if_pos hi, if_neg (by simp [never]), bind_ok hread, bind_ok hassign, hnext, hrest]
    · have hdrop : ∀ j, i ≤ j → xs.drop j = [] :=
        fun j hj => List.drop_eq_nil_of_le (Nat.le_trans (Nat.le_of_not_lt hi) hj)
      rw [hdrop i (Nat.le_refl i), List.append_nil] at hv' ⊢
      have hpush := @emplace_back_spec _ C _ _ never _ hv' (by simp; omega)
      rw [List.length_replicate, refused_never (by omega)] at hpush
      rw [hdrop (i + 1) (Nat.le_succ i), List.append_nil, List.replicate_succ'] at hrest
      rw [if_neg hi, push_back, bind_ok hpush, hrest]

/-- `assign` with a count keeps the elements behind. -/
theorem assign_count_iff {value : Arg α} (hv : value.of xs = some v) (hc : count ≤ C.N) :
    assign_count C count value never (ofList xs) =
        some (.ok (), ofList (List.replicate count v)) ↔
      xs.length ≤ count := by
  have hrun := assignLoop_spec (C := C) hv count 0 (by omega)
  rw [List.replicate_zero, List.nil_append, List.drop_zero, Nat.zero_add] at hrun
  rw [assign_count, size_bind, ofList_size, hrun]
  constructor
  · intro h
    have hsize := congrArg Vec.cur_size_ (congrArg Prod.snd (Option.some.inj h))
    simp only [ofList_size, List.length_append, List.length_replicate, List.length_drop] at hsize
    omega
  · intro hle
    rw [List.drop_eq_nil_of_le hle, List.append_nil]

theorem assignElems_spec (ys : List α) : ∀ zs : List α, zs.length + ys.length ≤ C.N →
    assignElems C xs.length (ys.map fun y => ⟨.value y, false⟩) zs.length
        (ofList (zs ++ xs.drop zs.length)) =
      some (.ok (zs.length + ys.length), ofList (zs ++ ys ++ xs.drop (zs.length + ys.length))) := by
  induction ys with
  | nil =>
    intro zs _
    simp [assignElems]
  | cons y ys ih =>
    intro zs hN
    have hrest := ih (zs ++ [y]) (by simp at hN ⊢; omega)
    rw [List.length_append, List.length_singleton, Nat.add_assoc, Nat.add_comm 1,
      List.append_assoc zs [y] ys] at hrest
    rw [List.map_cons, assignElems]
    by_cases hi : zs.length < xs.length
    · have hassign := assign_at_holding zs (xs.drop (zs.length + 1)) xs[zs.length] y
        (zs ++ xs.drop zs.length).length
      rw [← List.drop_eq_getElem_cons hi, holding_length] at hassign
      have hnext : holding (zs ++ y :: xs.drop (zs.length + 1)) (zs ++ xs.drop zs.length).length =
          ofList (zs ++ [y] ++ xs.drop (zs.length + 1)) := by
        rw [ofList, List.append_assoc, List.singleton_append]
        congr 1
        simp only [List.length_append, List.length_cons, List.length_drop]
        omega
      rw [if_pos hi, if_neg (by simp), bind_ok (x := y) rfl, bind_ok hassign, hnext]
      exact hrest
    · have hdrop : ∀ j, zs.length ≤ j → xs.drop j = [] :=
        fun j hj => List.drop_eq_nil_of_le (Nat.le_trans (Nat.le_of_not_lt hi) hj)
      rw [hdrop _ (Nat.le_refl _), List.append_nil]
      have hpush := @emplace_back_spec _ C zs (.value y) (fun _ => false) _ rfl (by omega)
      have hfits : refused C zs.length 1 (fun _ => false) = none :=
        refused_never (by simp at hN; omega)
      rw [hfits] at hpush
      rw [hdrop (zs.length + 1) (Nat.le_succ _), List.append_nil] at hrest
      rw [if_neg hi, bind_ok hpush]
      exact hrest

/-- The other forms of `assign` erase what is left of the old elements. -/
theorem assign_range_spec {r : Range α} {ys : List α}
    (hr : r.elems = ys.map fun y => ⟨.value y, false⟩) (hys : ys.length ≤ C.N) :
    assign_range C r (ofList xs) = some (.ok (), ofList ys) := by
  have hrun := @assignElems_spec _ C xs ys [] (by simpa using hys)
  simp only [List.length_nil, List.nil_append, List.drop_zero, Nat.zero_add] at hrun
  have hfits : ¬ (r.sized ∧ C.N < r.elems.length) := by
    rw [hr, List.length_map]
    exact fun h => Nat.not_lt_of_le hys h.2
  rw [assign_range, if_neg hfits, size_bind, ofList_size, hr, bind_ok hrun]
  by_cases hlt : ys.length < xs.length
  · have herase := erase_range_spec ys (xs.drop ys.length) []
    simp only [List.append_nil] at herase
    rw [if_pos hlt, size_bind, ofList_size, bind_ok herase]
    rfl
  · rw [if_neg hlt, List.drop_eq_nil_of_le (Nat.le_of_not_lt hlt), List.append_nil]
    rfl

end Assign

/-- When `resize` and `assign` give the vector the contents that they should, element by element:
they must not find the vector empty and leave it so, or make it shorter. -/
theorem contents_as_requested {C : Capacity} {xs : List α} {count : Nat} (hc : count ≤ C.N) :
    (∀ init, resize C count init never (ofList xs) =
        some (.ok (), ofList (xs.take count ++ List.replicate (count - xs.length) init)) ↔
      ¬ (count = 0 ∧ xs = [])) ∧
    (∀ value v, value.of xs = some v →
      (resize_value C count value never (ofList xs) =
          some (.ok (), ofList (xs.take count ++ List.replicate (count - xs.length) v)) ↔
        xs.length ≤ count ∧ ¬ (count = 0 ∧ xs = [])) ∧
      (assign_count C count value never (ofList xs) =
          some (.ok (), ofList (List.replicate count v)) ↔ xs.length ≤ count)) ∧
    ∀ ys (r : Range α), ys.length ≤ C.N → r.elems = ys.map (fun y => ⟨.value y, false⟩) →
      assign_iterators C r (ofList xs) = some (.ok (), ofList ys) ∧
        assign_range C r (ofList xs) = some (.ok (), ofList ys) :=
  ⟨fun init => resize_iff init hc,
    fun _ _ hv => ⟨resize_value_iff hv hc, assign_count_iff hv hc⟩,
    fun _ _ hys hr => ⟨assign_range_spec hr hys, assign_range_spec hr hys⟩⟩

theorem contents_as_requested_three :
    resize_value four 3 (.element 0) never (ofList [5, 6]) = some (.ok (), ofList [5, 6, 5]) :=
  ((@contents_as_requested _ four [5, 6] 3 (by decide)).2.1
    (.element 0) 5 rfl).1.2 (by decide)

/-- `resize(1, value)` destroys the second element and goes on counting it. -/
theorem contents_not_as_requested :
    ¬ ∀ (xs : List Nat) count v, xs.length ≤ four.N → count ≤ four.N →
      resize_value four count (.value v) never (ofList xs) =
        some (.ok (), ofList (xs.take count ++ List.replicate (count - xs.length) v)) := by
  intro h
  have hvalue : (Arg.value 7).of [5, 6] = some 7 := rfl
  have hshrink := (resize_value_iff (C := four) hvalue (by decide)).1
    (h [5, 6] 1 7 (by decide) (by decide))
  exact absurd hshrink.1 (by decide)

end Coio.InplaceVector
