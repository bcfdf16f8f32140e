import Coio.InplaceVector.Slots
import Mathlib.Data.List.Forall2
import Mathlib.Data.List.TakeDrop

namespace Coio.InplaceVector
open Function (update)
set_option autoImplicit true

/-- The loop of `try_emplace_back_n_` stops at the first constructor that throws. -/
theorem emplaceLoop_spec {xs : List α} (hx : args.of xs = some x) (n : Nat) :
    ∀ k ys, (xs ++ ys).length + k ≤ C.N → ∃ zs e,
      emplaceLoop C args throws k (xs ++ ys).length (holding (xs ++ ys) n) =
        some (.ok ((xs ++ zs).length, e), holding (xs ++ zs) n) ∧
      (e = none ∧ zs = ys ++ List.replicate k x ∧
          (∀ i < k, throws ((xs ++ ys).length + i) = false) ∨
        e = some .element ∧ ∃ i < k, throws ((xs ++ ys).length + i) = true) := by
  intro k
  induction k with
  | zero =>
    intro ys _
    exact ⟨ys, none, rfl, .inl ⟨rfl, by simp, by simp⟩⟩
  | succ k ih =>
    intro ys hN
    by_cases ht : throws (xs ++ ys).length
    · refine ⟨ys, some .element, ?_, .inr ⟨rfl, 0, Nat.succ_pos k, ht⟩⟩
      rw [emplaceLoop, if_pos ht]
      rfl
    · have hlt : (xs ++ ys).length < C.N := by omega
      have hlen : (xs ++ (ys ++ [x])).length = (xs ++ ys).length + 1 := by simp; omega
      obtain ⟨zs, e, hrun, he⟩ := ih (ys ++ [x]) (by omega)
      refine ⟨zs, e, ?_, ?_⟩
      · rw [emplaceLoop, if_neg ht, bind_ok (Arg.read_holding hx ys n),
          bind_ok (construct_at_holding C hlt x n), ← hlen, List.append_assoc]
        exact hrun
      · rw [hlen] at he
        rcases he with ⟨rfl, rfl, hok⟩ | ⟨rfl, i, hi, hthrow⟩
        · refine .inl ⟨rfl, by simp [List.replicate_succ], fun i hi => ?_⟩
          cases i with
          | zero => simpa using ht
          | succ i => rw [← hok i (by omega), Nat.add_right_comm, Nat.add_assoc]
        · refine .inr ⟨rfl, i + 1, by omega, ?_⟩
          rw [← hthrow, Nat.add_right_comm, Nat.add_assoc]

section TryEmplace

variable {C : Capacity} {xs : List α} {args : Arg α} {throws : Nat → Bool}

theorem try_emplace_full (h : C.N < Word.add xs.length count) :
    try_emplace_back_n_ C count args throws (ofList xs) = some (.ok none, ofList xs) := by
  rw [try_emplace_back_n_, size_bind, ofList_size]
  simp only [if_pos h, pure_call]

theorem try_emplace_run (hx : args.of xs = some x) (h : xs.length + count ≤ C.N) :
    try_emplace_back_n_ C count args throws (ofList xs) =
      if ∀ i < count, throws (xs.length + i) = false then
        (do return some (← back)) (ofList (xs ++ List.replicate count x))
      else some (.error .element, ofList xs) := by
  have hadd : Word.add xs.length count = xs.length + count :=
    Word.add_of_lt (by have := C.lt; unfold Word.modulus; omega)
  have hle : ¬ C.N < Word.add xs.length count := by omega
  obtain ⟨zs, e, hrun, he⟩ :=
    @emplaceLoop_spec _ _ _ _ throws _ hx xs.length count [] (by simpa)
  simp only [List.append_nil, List.nil_append, holding_length] at hrun he
  rw [try_emplace_back_n_, size_bind, ofList_size]
  simp only [if_neg hle]
  rw [hadd, Nat.add_sub_cancel_left, bind_ok hrun]
  rcases he with ⟨rfl, rfl, hok⟩ | ⟨rfl, i, hi, hthrow⟩
  · rw [bind_ok (finish_ok xs _), if_pos hok]
  · rw [bind_error (finish_error xs zs _), if_neg]
    intro hok
    simp [hok i hi] at hthrow

theorem back_ofList (h : xs ≠ []) : back (ofList xs) = some (.ok (xs.length - 1), ofList xs) :=
  if_neg fun hl => h (List.length_eq_zero_iff.1 hl)

theorem try_emplace_ok (hx : args.of xs = some x) (h : xs.length + count ≤ C.N)
    (hne : 0 < xs.length + count) (hok : ∀ i < count, throws (xs.length + i) = false) :
    try_emplace_back_n_ C count args throws (ofList xs) =
      some (.ok (some (xs.length + count - 1)), ofList (xs ++ List.replicate count x)) := by
  have hnil : xs ++ List.replicate count x ≠ [] := by
    intro hnil
    have hlen := congrArg List.length hnil
    simp only [List.length_append, List.length_replicate, List.length_nil] at hlen
    omega
  rw [try_emplace_run hx h, if_pos hok, bind_ok (back_ofList hnil)]
  simp

theorem try_emplace_throws (hx : args.of xs = some x) (h : xs.length + count ≤ C.N)
    (hi : i < count) (ht : throws (xs.length + i) = true) :
    try_emplace_back_n_ C count args throws (ofList xs) = some (.error .element, ofList xs) := by
  rw [try_emplace_run hx h, if_neg]
  intro hok
  simp [hok i hi] at ht

/-- Without an element to refer to, `back()` is undefined. -/
theorem try_emplace_nothing :
    try_emplace_back_n_ C 0 args throws (ofList ([] : List α)) = none := by
  rw [try_emplace_back_n_, size_bind, ofList_size]
  simp [Word.add, Word.modulus, emplaceLoop, finish, ofList, holding]
  rfl

end TryEmplace

/-- What stops the loop of `append_range` when it starts with `len` elements. -/
def stopped (C : Capacity) (elems : List (New α)) (len : Nat) : Option Exception :=
  if (elems.take (C.N - len)).any New.throws then some .element
  else if C.N < len + elems.length then some .bad_alloc
  else none

theorem appendLoop_spec {xs ys : List α} {elems : List (New α)}
    (h : List.Forall₂ (fun e y => e.arg.of xs = some y) elems ys) (n : Nat) :
    ∀ zs, (xs ++ zs).length ≤ C.N → ∃ ws,
      appendLoop C elems (xs ++ zs).length (holding (xs ++ zs) n) =
        some (.ok ((xs ++ ws).length, stopped C elems (xs ++ zs).length), holding (xs ++ ws) n) ∧
      (stopped C elems (xs ++ zs).length = none → ws = zs ++ ys) := by
  induction h with
  | nil =>
    intro zs hN
    refine ⟨zs, ?_, fun _ => by simp⟩
    rw [appendLoop]
    simp only [stopped, List.take_nil, List.any_nil, List.length_nil, Nat.add_zero]
    rw [if_neg (by simp), if_neg (by omega)]
    rfl
  | @cons e y elems ys he _ ih =>
    intro zs hN
    rw [appendLoop]
    by_cases hfull : (xs ++ zs).length = C.N
    · have hstop : stopped C (e :: elems) (xs ++ zs).length = some .bad_alloc := by
        rw [stopped, hfull, Nat.sub_self, if_neg (by simp), if_pos (by simp)]
      rw [if_pos hfull, hstop]
      exact ⟨zs, rfl, nofun⟩
    · have hsub : C.N - (xs ++ zs).length = C.N - ((xs ++ zs).length + 1) + 1 := by omega
      rw [if_neg hfull]
      by_cases ht : e.throws
      · have hstop : stopped C (e :: elems) (xs ++ zs).length = some .element := by
          rw [stopped, hsub, List.take_succ_cons, if_pos (by simp [ht])]
        rw [if_pos ht, hstop]
        exact ⟨zs, rfl, nofun⟩
      · have hlen : (xs ++ (zs ++ [y])).length = (xs ++ zs).length + 1 := by simp; omega
        have hstop : stopped C (e :: elems) (xs ++ zs).length =
            stopped C elems ((xs ++ zs).length + 1) := by
          rw [stopped, stopped, hsub, List.take_succ_cons, List.any_cons, eq_false_of_ne_true ht,
            Bool.false_or, List.length_cons, Nat.add_right_comm, Nat.add_assoc]
        obtain ⟨ws, hrun, hws⟩ := ih (zs ++ [y]) (by omega)
        rw [hlen] at hrun hws
        refine ⟨ws, ?_, fun hn => ?_⟩
        · rw [if_neg ht, bind_ok (Arg.read_holding he zs n),
            bind_ok (construct_at_holding C (by omega) y n), hstop, List.append_assoc]
          exact hrun
        · rw [hws (hstop ▸ hn), List.append_assoc, List.singleton_append]

/-- What `append_range` throws on `len` elements. -/
def Range.refused (C : Capacity) (r : Range α) (len : Nat) : Option Exception :=
  if r.sized ∧ C.N < len + r.elems.length then some .bad_alloc else stopped C r.elems len

/-- The outcome of a call that appends and throws nothing or is undone. -/
def appended (xs ys : List α) : Option Exception → Except Exception Unit × Vec α
  | none => (.ok (), ofList (xs ++ ys))
  | some e => (.error e, ofList xs)

section Append

variable {C : Capacity} {xs ys : List α} {r : Range α}

theorem appendLoop_finish {elems : List (New α)} (hx : xs.length ≤ C.N)
    (h : List.Forall₂ (fun e y => e.arg.of xs = some y) elems ys) :
    (do finish (← appendLoop C elems xs.length) : Call α Unit) (ofList xs) =
      some (appended xs ys (stopped C elems xs.length)) := by
  obtain ⟨ws, hrun, hws⟩ := appendLoop_spec (C := C) h xs.length [] (by simpa)
  simp only [List.append_nil, List.nil_append, holding_length] at hrun hws
  rw [bind_ok hrun]
  cases hs : stopped C elems xs.length with
  | none => rw [hws hs, finish_ok, appended]
  | some e => rw [finish_error, appended]

/-- The length of a sized range does not wrap around. -/
theorem Range.full_iff (hx : xs.length ≤ C.N) (r : Range α) :
    (r.sized ∧ C.N < Word.add r.elems.length xs.length) ↔
      r.sized ∧ C.N < xs.length + r.elems.length := by
  refine and_congr_right fun hs => ?_
  rw [Word.add_of_lt, Nat.add_comm]
  have h₁ := r.lt hs
  have h₂ := C.lt
  unfold Word.modulus
  omega

theorem append_range_spec (hx : xs.length ≤ C.N)
    (h : List.Forall₂ (fun e y => e.arg.of xs = some y) r.elems ys) :
    append_range C r (ofList xs) = some (appended xs ys (r.refused C xs.length)) := by
  rw [append_range, size_bind, ofList_size]
  simp only [Range.full_iff hx, Range.refused]
  split
  · rfl
  · exact appendLoop_finish hx h

/-- New elements that follow `ys` go in front of them. -/
theorem shift_right_spec (xs ys zs : List α) (h : (xs ++ ys ++ zs).length < Word.modulus) :
    shift_right_ xs.length zs.length (ofList (xs ++ ys ++ zs)) =
      some (.ok (), ofList (xs ++ zs ++ ys)) := by
  simp only [List.length_append] at h
  rw [shift_right_, size_bind, ofList_size, Word.add_of_lt (by omega)]
  simp only [List.length_append]
  split
  · rename_i hs
    rcases hs with hs | hs
    · obtain rfl := List.length_eq_zero_iff.1 hs
      simp
    · obtain rfl := List.length_eq_zero_iff.1 (show ys.length = 0 by omega)
      simp
  · rename_i hs
    have hsub : Word.sub (xs.length + ys.length + zs.length) xs.length = ys.length + zs.length := by
      rw [Word.sub_of_le (by omega)]
      omega
    rw [hsub, Word.sub_of_le (Nat.le_add_left ..), Nat.add_sub_cancel, ofList, rotate_holding]
    simp only [ofList, List.length_append, Nat.add_right_comm]

end Append

/-- The elements behind the erased ones move to their place. -/
theorem move_spec (n : Nat) (zs : List α) : ∀ xs ys, ys ≠ [] → ∃ ws, ws.length = ys.length ∧
    move zs.length (xs ++ ys).length xs.length (holding (xs ++ ys ++ zs) n) =
      some (.ok (), holding (xs ++ zs ++ ws) n) := by
  induction zs with
  | nil =>
    intro xs ys _
    exact ⟨ys, rfl, by simp [move]⟩
  | cons z zs ih =>
    intro xs ys hne
    obtain ⟨y, ys, rfl⟩ := List.exists_cons_of_ne_nil hne
    obtain ⟨ws, hlen, hrun⟩ := ih (xs ++ [z]) (ys ++ [z]) (by simp)
    have hz : (xs ++ y :: ys ++ z :: zs)[(xs ++ y :: ys).length]? = some z := by simp
    refine ⟨ws, by simp [hlen], ?_⟩
    rw [List.length_cons, move, bind_ok (load_holding hz)]
    have hassign := assign_at_holding xs (ys ++ z :: zs) y z n
    rw [List.append_assoc, List.cons_append, bind_ok hassign]
    simpa [Nat.add_comm, Nat.add_left_comm] using hrun

theorem destroy_spec (v : Vec α) : ∀ k i, (∀ j, i ≤ j → j < i + k → v.slots j ≠ none) →
    destroy k i v =
      some (.ok (), { v with
        slots := fun j => if i ≤ j ∧ j < i + k then none else v.slots j }) := by
  intro k
  induction k generalizing v with
  | zero =>
    intro i _
    have hsame : (fun j => if i ≤ j ∧ j < i + 0 then none else v.slots j) = v.slots :=
      funext fun j => if_neg (by omega)
    rw [destroy, pure_call, hsame]
  | succ k ih =>
    intro i h
    obtain ⟨x, hx⟩ := Option.ne_none_iff_exists'.1 (h i (Nat.le_refl i) (by omega))
    have hd : destroy_at i v = some (.ok (), { v with slots := update v.slots i none }) := by
      rw [destroy_at, hx]
      rfl
    rw [destroy, bind_ok hd, ih]
    · congr 3
      funext j
      by_cases hj : j = i
      · subst hj
        simp
      · simp only [Function.update_of_ne hj]
        congr 1
        apply propext
        omega
    · intro j hi hj
      rw [show ({ v with slots := update v.slots i none } : Vec α).slots j = v.slots j from
        Function.update_of_ne (by omega) ..]
      exact h j (by omega) (by omega)

theorem destroy_holding (xs ys : List α) (n : Nat) :
    destroy ys.length xs.length (holding (xs ++ ys) n) = some (.ok (), holding xs n) := by
  rw [destroy_spec]
  · congr 3
    funext i
    simp only [holding]
    split
    · rename_i hi
      exact (List.getElem?_eq_none hi.1).symm
    · rename_i hi
      by_cases hlt : i < xs.length
      · rw [List.getElem?_append_left hlt]
      · rw [List.getElem?_eq_none (by simp; omega), List.getElem?_eq_none (by omega)]
  · intro i _ hi
    simp only [holding]
    rw [List.getElem?_eq_getElem (by simpa using hi)]
    exact Option.some_ne_none _

theorem erase_range_spec (xs ys zs : List α) :
    erase_range xs.length (xs ++ ys).length (ofList (xs ++ ys ++ zs)) =
      some (.ok xs.length, ofList (xs ++ zs)) := by
  rw [erase_range, size_bind, ofList_size]
  by_cases hne : ys = []
  · subst hne
    simp
  · obtain ⟨ws, hlen, hrun⟩ := move_spec (xs ++ ys ++ zs).length zs xs ys hne
    have hpos := List.length_pos_iff.2 hne
    have hd := destroy_holding (xs ++ zs) ws (xs ++ ys ++ zs).length
    simp only [List.length_append] at hrun hd ⊢
    rw [if_pos (by omega), Nat.add_sub_cancel_left]
    rw [ofList, List.length_append, List.length_append, bind_ok hrun,
      show xs.length + ys.length + zs.length - (xs.length + zs.length) = ws.length by omega,
      bind_ok hd]
    rw [Word.sub_of_le (by omega), show xs.length + ys.length + zs.length -
      (xs.length + ys.length - xs.length) = (xs ++ zs).length by simp; omega]
    rfl

end Coio.InplaceVector
