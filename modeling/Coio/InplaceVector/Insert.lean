import Coio.InplaceVector.Loops

namespace Coio.InplaceVector
set_option autoImplicit true

/-- `xs` with `ys` inserted at the position `i`. -/
def insertAt (i : Nat) (xs ys : List α) : List α := xs.take i ++ ys ++ xs.drop i

/-- The outcome of an insertion at `i` that throws nothing or is undone. -/
def inserted (i : Nat) (xs ys : List α) : Option Exception → Except Exception Nat × Vec α
  | none => (.ok i, ofList (insertAt i xs ys))
  | some e => (.error e, ofList xs)

section Insert

variable {C : Capacity} {xs ys : List α} {args : Arg α} {throws : Nat → Bool}

theorem shift_right_at (hi : i ≤ xs.length) (h : (xs ++ ys).length < Word.modulus) :
    shift_right_ i ys.length (ofList (xs ++ ys)) = some (.ok (), ofList (insertAt i xs ys)) := by
  have hs := shift_right_spec (xs.take i) (xs.drop i) ys (by rwa [List.take_append_drop])
  rwa [List.take_append_drop, List.length_take_of_le hi] at hs

theorem lt_modulus (h : n ≤ C.N) : n < Word.modulus := by
  have := C.lt
  unfold Word.modulus
  omega

/-- What stops `count` constructions that follow `len` elements. -/
def refused (C : Capacity) (len count : Nat) (throws : Nat → Bool) : Option Exception :=
  if C.N < len + count then some .bad_alloc
  else if ∀ i < count, throws (len + i) = false then none
  else some .element

theorem emplace_back_spec (hx : args.of xs = some x) (hN : xs.length ≤ C.N) :
    emplace_back C args throws (ofList xs) =
      match refused C xs.length 1 throws with
      | none => some (.ok xs.length, ofList (xs ++ [x]))
      | some e => some (.error e, ofList xs) := by
  have hadd : Word.add xs.length 1 = xs.length + 1 := by
    rw [Word.add_of_lt]
    have := C.lt
    unfold Word.modulus
    omega
  rw [emplace_back, refused]
  by_cases hfull : C.N < xs.length + 1
  · rw [if_pos hfull, bind_ok (try_emplace_full (hadd.symm ▸ hfull))]
    rfl
  · rw [if_neg hfull]
    by_cases hok : ∀ i < 1, throws (xs.length + i) = false
    · rw [if_pos hok, bind_ok (try_emplace_ok hx (Nat.le_of_not_lt hfull) (by omega) hok)]
      have hback := @back_ofList _ (xs ++ List.replicate 1 x) (by simp)
      simpa using hback
    · obtain ⟨i, hi, ht⟩ : ∃ i < 1, throws (xs.length + i) = true := by simpa using hok
      rw [if_neg hok, bind_error (try_emplace_throws hx (Nat.le_of_not_lt hfull) hi ht)]

theorem emplace_spec (hx : args.of xs = some x) (hN : xs.length ≤ C.N) (hi : i ≤ xs.length) :
    emplace C i args throws (ofList xs) =
      some (inserted i xs [x] (refused C xs.length 1 throws)) := by
  have hback := @emplace_back_spec _ _ _ _ throws _ hx hN
  rw [emplace]
  cases hr : refused C xs.length 1 throws with
  | none =>
    rw [hr] at hback
    have hlen : xs.length + 1 ≤ C.N := by
      by_contra hlt
      simp [refused, Nat.lt_of_not_le hlt] at hr
    have hshift := @shift_right_at _ xs [x] i hi (lt_modulus (by simpa))
    rw [bind_ok hback]
    exact bind_ok hshift
  | some e =>
    rw [hr] at hback
    rw [bind_error hback]
    rfl

theorem insert_count_spec (hx : args.of xs = some x) (hi : i ≤ xs.length)
    (hadd : xs.length + count < Word.modulus) (hne : ¬ (count = 0 ∧ xs = [])) :
    insert_count C i count args throws (ofList xs) =
      some (inserted i xs (List.replicate count x) (refused C xs.length count throws)) := by
  rw [insert_count, refused]
  by_cases hfull : C.N < xs.length + count
  · rw [if_pos hfull, bind_ok (try_emplace_full ((Word.add_of_lt hadd).symm ▸ hfull))]
    rfl
  · have hle := Nat.le_of_not_lt hfull
    rw [if_neg hfull]
    by_cases hok : ∀ j < count, throws (xs.length + j) = false
    · have hpos : 0 < xs.length + count := by
        rw [Nat.pos_iff_ne_zero]
        intro h0
        exact hne ⟨by omega, List.length_eq_zero_iff.1 (by omega)⟩
      have hshift := @shift_right_at _ xs (List.replicate count x) i hi (by simpa)
      rw [List.length_replicate] at hshift
      rw [if_pos hok, bind_ok (try_emplace_ok hx hle hpos hok)]
      exact bind_ok hshift
    · obtain ⟨j, hj, ht⟩ : ∃ j < count, throws (xs.length + j) = true := by simpa using hok
      rw [if_neg hok, bind_error (try_emplace_throws hx hle hj ht)]
      rfl

/-- `back()` is called on an empty vector. -/
theorem insert_nothing (C : Capacity) (i : Nat) (args : Arg α) (throws : Nat → Bool) :
    insert_count C i 0 args throws (ofList ([] : List α)) = none :=
  bind_none try_emplace_nothing

/-- A sum that wraps around always passes for a size that fits. -/
theorem try_emplace_wrapped (hN : xs.length ≤ C.N) (hc : count < Word.modulus)
    (hadd : Word.modulus ≤ xs.length + count) :
    try_emplace_back_n_ C count args throws (ofList xs) =
      some (.ok (some (xs.length - 1)), ofList xs) := by
  have hwrap : Word.add xs.length count = xs.length + count - Word.modulus :=
    if_neg (Nat.not_lt_of_le hadd)
  have hne : xs ≠ [] := by
    rintro rfl
    simp only [List.length_nil] at hadd
    omega
  rw [try_emplace_back_n_, size_bind, ofList_size, hwrap]
  simp only [if_neg (show ¬ C.N < xs.length + count - Word.modulus by omega)]
  rw [show xs.length + count - Word.modulus - xs.length = 0 by omega]
  show (do return some (← back) : Call α (Option Nat)) (ofList xs) = _
  rw [bind_ok (back_ofList hne)]
  rfl

variable {r : Range α}

theorem Range.fits (h : r.refused C n = none) : n + r.elems.length ≤ C.N := by
  by_contra hlt
  rw [refused] at h
  split at h
  · cases h
  · rw [stopped] at h
    split at h
    · cases h
    · rw [if_pos (Nat.lt_of_not_le hlt)] at h
      cases h

theorem insert_range_spec (hN : xs.length ≤ C.N) (hi : i ≤ xs.length)
    (h : List.Forall₂ (fun e y => e.arg.of xs = some y) r.elems ys) :
    insert_range C i r (ofList xs) = some (inserted i xs ys (r.refused C xs.length)) := by
  have happ := append_range_spec hN h
  rw [insert_range, size_bind, ofList_size]
  cases hr : r.refused C xs.length with
  | none =>
    rw [hr] at happ
    have hfits := Range.fits hr
    rw [h.length_eq] at hfits
    rw [bind_ok happ, size_bind, ofList_size, List.length_append,
      Word.sub_of_le (Nat.le_add_right ..), Nat.add_sub_cancel_left]
    exact bind_ok (shift_right_at hi (lt_modulus (by simpa using hfits)))
  | some e =>
    rw [hr] at happ
    rw [bind_error happ]
    rfl

/-- `insert` with iterators does what `insert_range` does. -/
theorem insert_iterators_eq :
    insert_iterators C i r (ofList xs) = insert_range C i r (ofList xs) := by
  rw [insert_iterators, insert_range, size_bind, size_bind, ofList_size]
  by_cases hs : r.sized ∧ C.N < Word.add r.elems.length xs.length
  · have happ : append_range C r (ofList xs) = some (.error .bad_alloc, ofList xs) := by
      rw [append_range, size_bind, ofList_size]
      simp only [if_pos hs, throw_call]
    simp only [if_pos hs, throw_call]
    rw [bind_error happ]
  · have happ : append_range C r (ofList xs) =
        (do finish (← appendLoop C r.elems xs.length) : Call α Unit) (ofList xs) := by
      rw [append_range, size_bind, ofList_size]
      simp only [if_neg hs]
    simp only [if_neg hs]
    rw [← bind_bind]
    cases hl : (do finish (← appendLoop C r.elems xs.length) : Call α Unit) (ofList xs) with
    | none => rw [bind_none hl, bind_none (happ.trans hl)]
    | some res =>
      obtain ⟨e | u, w⟩ := res
      · rw [bind_error hl, bind_error (happ.trans hl)]
      · rw [bind_ok hl, bind_ok (happ.trans hl)]

end Insert

end Coio.InplaceVector
