import Coio.InplaceVector.Contents

namespace Coio.InplaceVector
set_option autoImplicit true

/-- The call on a vector that contains `xs` throws `bad_alloc` exactly when it has no room, and
whatever it throws leaves the vector as it was. -/
def Atomic (m : Call α β) (xs : List α) (full : Prop) : Prop :=
  ∃ r w, m (ofList xs) = some (r, w) ∧ (r = .error .bad_alloc ↔ full) ∧
    ∀ e, r = .error e → w = ofList xs

theorem reverse_returns (first last : Nat) (v : Vec α) :
    reverse first last v = none ∨ ∃ w, reverse first last v = some (.ok (), w) := by
  rw [reverse]
  split
  · exact .inr ⟨_, rfl⟩
  · exact .inl rfl

/-- A call after one that cannot throw. -/
theorem bind_returns {m : Call α Unit} {f : Unit → Call α β} {v : Vec α}
    (hm : m v = none ∨ ∃ w, m v = some (.ok (), w)) (hf : ∀ w, f () w ≠ some (.error e, u)) :
    (m >>= f) v ≠ some (.error e, u) := by
  rcases hm with hm | ⟨w, hm⟩
  · rw [bind_none hm]
    exact nofun
  · rw [bind_ok hm]
    exact hf w

theorem shift_right_returns (start n : Nat) (v w : Vec α) (e : Exception) :
    shift_right_ start n v ≠ some (.error e, w) := by
  rw [shift_right_, size_bind]
  split
  · rintro ⟨⟩
  · apply bind_returns (reverse_returns ..)
    intro u
    apply bind_returns (reverse_returns ..)
    intro u
    rcases reverse_returns start v.cur_size_ u with h | ⟨u', h⟩ <;> rw [h] <;> rintro ⟨⟩

section Growth

variable {α : Type} {C : Capacity} {xs ys : List α} {args value : Arg α} {throws : Nat → Bool}

theorem refused_bad_alloc_iff (len count : Nat) :
    refused C len count throws = some .bad_alloc ↔ C.N < len + count := by
  rw [refused]
  split
  · rename_i h
    exact iff_of_true rfl h
  · rename_i h
    refine iff_of_false ?_ h
    split <;> rintro ⟨⟩

/-- A sized range is measured, and any other is too long when its constructors get that far. -/
theorem Range.refused_bad_alloc_iff (r : Range α) (len : Nat) :
    r.refused C len = some .bad_alloc ↔ C.N < len + r.elems.length ∧
      (r.sized ∨ ∀ e ∈ r.elems.take (C.N - len), e.throws = false) := by
  rw [refused]
  split
  · rename_i h
    exact iff_of_true rfl ⟨h.2, .inl h.1⟩
  · rename_i h
    rw [stopped]
    split
    · rename_i hany
      refine iff_of_false (by rintro ⟨⟩) fun hfull => ?_
      rcases hfull.2 with hs | hall
      · exact h ⟨hs, hfull.1⟩
      · obtain ⟨e, he, ht⟩ := List.any_eq_true.1 hany
        rw [hall e he] at ht
        cases ht
    · rename_i hany
      have hall : ∀ e ∈ r.elems.take (C.N - len), e.throws = false := by simpa using hany
      split
      · rename_i hfull
        exact iff_of_true rfl ⟨hfull, .inr hall⟩
      · rename_i hfit
        exact iff_of_false (by rintro ⟨⟩) fun hfull => hfit hfull.1

theorem Atomic.of_outcome {m : Call α β} {o : Option Exception}
    (hok : o = none → ∃ x w, m (ofList xs) = some (.ok x, w))
    (herror : ∀ e, o = some e → m (ofList xs) = some (.error e, ofList xs))
    (ho : o = some .bad_alloc ↔ full) : Atomic m xs full := by
  cases o with
  | none =>
    obtain ⟨x, w, h⟩ := hok rfl
    exact ⟨_, _, h, ⟨nofun, fun hf => nomatch ho.2 hf⟩, nofun⟩
  | some e =>
    refine ⟨_, _, herror e rfl, ?_, fun _ _ => rfl⟩
    rw [← ho, Except.error.injEq, Option.some.injEq]

theorem inserted_atomic {m : Call α Nat} {o : Option Exception}
    (h : m (ofList xs) = some (inserted i xs ys o)) (ho : o = some .bad_alloc ↔ full) :
    Atomic m xs full := by
  refine .of_outcome (fun hn => ?_) (fun e he => ?_) ho
  · rw [h, hn]
    exact ⟨_, _, rfl⟩
  · rw [h, he]
    rfl

theorem emplace_back_atomic (hx : args.of xs = some x) (hxs : xs.length ≤ C.N) :
    Atomic (emplace_back C args throws) xs (C.N < xs.length + 1) := by
  have h := @emplace_back_spec _ _ _ _ throws _ hx hxs
  refine .of_outcome (fun hn => ?_) (fun e he => ?_) (@refused_bad_alloc_iff _ throws ..)
  · rw [h, hn]
    exact ⟨_, _, rfl⟩
  · rw [h, he]

theorem append_range_atomic {r : Range α} (hxs : xs.length ≤ C.N)
    (hr : List.Forall₂ (fun e y => e.arg.of xs = some y) r.elems ys) :
    Atomic (append_range C r) xs (C.N < xs.length + r.elems.length ∧
      (r.sized ∨ ∀ e ∈ r.elems.take (C.N - xs.length), e.throws = false)) := by
  have h := append_range_spec hxs hr
  refine .of_outcome (fun hn => ?_) (fun e he => ?_) (r.refused_bad_alloc_iff _)
  · rw [h, hn]
    exact ⟨_, _, rfl⟩
  · rw [h, he]
    rfl

/-- The sum of the size and the count must not wrap around. -/
theorem insert_count_atomic_iff (hx : value.of xs = some x) (hxs : xs.length ≤ C.N)
    (hi : i ≤ xs.length) (hc : count < 2 ^ 64) :
    Atomic (insert_count C i count value throws) xs (C.N < xs.length + count) ↔
      xs.length + count < 2 ^ 64 ∧ ¬ (count = 0 ∧ xs = []) := by
  by_cases hadd : xs.length + count < Word.modulus
  · by_cases hnone : count = 0 ∧ xs = []
    · obtain ⟨rfl, rfl⟩ := hnone
      refine iff_of_false ?_ fun h => h.2 ⟨rfl, rfl⟩
      rintro ⟨r, w, hrun, -⟩
      rw [insert_nothing] at hrun
      cases hrun
    · exact iff_of_true
        (inserted_atomic (insert_count_spec hx hi hadd hnone) (refused_bad_alloc_iff ..))
        ⟨hadd, hnone⟩
  · refine iff_of_false ?_ fun h => hadd h.1
    have hle := Nat.le_of_not_lt hadd
    have hfull : C.N < xs.length + count := Nat.lt_of_lt_of_le (lt_modulus (Nat.le_refl _)) hle
    rintro ⟨r, w, hrun, hiff, -⟩
    obtain rfl := hiff.2 hfull
    rw [insert_count, bind_ok (try_emplace_wrapped hxs hc hle)] at hrun
    cases hs : shift_right_ i count (ofList xs) with
    | none =>
      have := (bind_none hs).symm.trans hrun
      cases this
    | some res =>
      obtain ⟨e | u, v⟩ := res
      · exact shift_right_returns _ _ _ _ _ hs
      · have := (bind_ok hs).symm.trans hrun
        cases this

/-- Growth checks the capacity and is undone when it fails. The number of the new elements is what
it is, except that a count must not wrap around with the size; a constructor that throws may come
before the end of the capacity where the length of the range is not known. -/
theorem growth_checks_capacity (hxs : xs.length ≤ C.N) :
    (∀ args x throws, args.of xs = some x →
      Atomic (emplace_back C args throws) xs (C.N < xs.length + 1) ∧
      Atomic (push_back C args throws) xs (C.N < xs.length + 1)) ∧
    (∀ i count value x throws, i ≤ xs.length → count < 2 ^ 64 → value.of xs = some x →
      (Atomic (insert_count C i count value throws) xs (C.N < xs.length + count) ↔
        xs.length + count < 2 ^ 64 ∧ ¬ (count = 0 ∧ xs = []))) ∧
    ∀ i ys (r : Range α), i ≤ xs.length →
      List.Forall₂ (fun e y => e.arg.of xs = some y) r.elems ys →
      ∀ full, full = (C.N < xs.length + r.elems.length ∧
        (r.sized ∨ ∀ e ∈ r.elems.take (C.N - xs.length), e.throws = false)) →
      Atomic (insert_iterators C i r) xs full ∧ Atomic (append_range C r) xs full ∧
        Atomic (insert_range C i r) xs full := by
  refine ⟨fun args x throws hx => ⟨emplace_back_atomic hx hxs, emplace_back_atomic hx hxs⟩,
    fun i count value x throws hi hc hx => insert_count_atomic_iff hx hxs hi hc, ?_⟩
  rintro i ys r hi hr _ rfl
  have hrange := inserted_atomic (insert_range_spec hxs hi hr) (r.refused_bad_alloc_iff _)
  refine ⟨?_, append_range_atomic hxs hr, hrange⟩
  rwa [Atomic, insert_iterators_eq]

end Growth

theorem growth_checks_capacity_full :
    Atomic (insert_count four 0 3 (.value 7) never) [5, 6] (4 < 2 + 3) :=
  ((@growth_checks_capacity _ four [5, 6] (by decide)).2.1 0 3 (.value 7) 7 never
    (by decide) (by decide) rfl).2 (by decide)

/-- The sum of the size 2 and of the count is 1. -/
theorem growth_wraps_around :
    ¬ ∀ (xs : List Nat) count v, xs.length ≤ four.N → count < 2 ^ 64 →
      Atomic (insert_count four 0 count (.value v) never) xs (four.N < xs.length + count) := by
  intro h
  have hvalue : (Arg.value 7).of [5, 6] = some 7 := rfl
  have hwrap := (insert_count_atomic_iff (C := four) hvalue (by decide) (Nat.zero_le _)
    (by decide)).1 (h [5, 6] (2 ^ 64 - 1) 7 (by decide) (by decide))
  exact absurd hwrap.1 (by decide)

end Coio.InplaceVector
