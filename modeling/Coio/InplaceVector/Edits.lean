import Coio.InplaceVector.Remove

namespace Coio.InplaceVector
open Function (update)
set_option autoImplicit true

section Swap

variable {α : Type} {C : Capacity} {moved : α → α} {xs ys zs ws : List α} {n m : Nat}

theorem swapLoop_spec (k : Nat) : ∀ as bs : List α, as.length = bs.length →
    ∀ xs ys : List α, k ≤ xs.length → k ≤ ys.length →
      swapLoop k as.length (holding (as ++ xs) n) (holding (bs ++ ys) m) =
        some (holding (as ++ ys.take k ++ xs.drop k) n,
          holding (bs ++ xs.take k ++ ys.drop k) m) := by
  induction k with
  | zero =>
    intro as bs _ xs ys _ _
    simp [swapLoop]
  | succ k ih =>
    intro as bs hlen xs ys hxs hys
    obtain ⟨x, xs, rfl⟩ := List.exists_cons_of_length_pos (Nat.lt_of_lt_of_le (Nat.succ_pos k) hxs)
    obtain ⟨y, ys, rfl⟩ := List.exists_cons_of_length_pos (Nat.lt_of_lt_of_le (Nat.succ_pos k) hys)
    have hx : (as ++ x :: xs)[as.length]? = some x := by simp
    have hy : (bs ++ y :: ys)[as.length]? = some y := by simp [hlen]
    have hrun := ih (as ++ [y]) (bs ++ [x]) (by simp [hlen]) xs ys (Nat.le_of_succ_le_succ hxs)
      (Nat.le_of_succ_le_succ hys)
    have hv := update_holding as xs x y
    have hw := update_holding bs ys y x
    rw [← hlen] at hw
    simp only [swapLoop, holding, hx, hy, Option.bind_some, hv, hw]
    simpa [holding] using hrun

theorem moveOut_spec (n : Nat) (zs : List α) : ∀ ys : List α,
    moveOut moved zs.length ys.length (holding (ys ++ zs) n) =
      some (.ok (zs.map fun z => ⟨.value z, false⟩), holding (ys ++ zs.map moved) n) := by
  induction zs with
  | nil =>
    intro ys
    rfl
  | cons z zs ih =>
    intro ys
    have hz : (ys ++ z :: zs)[ys.length]? = some z := by simp
    have hrest := ih (ys ++ [moved z])
    rw [List.length_append, List.length_singleton, List.append_assoc, List.append_assoc] at hrest
    rw [List.length_cons, moveOut, bind_ok (load_holding hz),
      bind_ok (assign_at_holding ys zs z _ n)]
    exact bind_ok hrest

theorem stopped_none {elems : List (New α)} (hfit : n + elems.length ≤ C.N)
    (h : ∀ e ∈ elems, e.throws = false) : stopped C elems n = none := by
  rw [stopped, if_neg, if_neg (Nat.not_lt_of_le hfit)]
  intro hany
  obtain ⟨e, he, ht⟩ := List.any_eq_true.1 hany
  simp [h e (List.mem_of_mem_take he)] at ht

theorem Range.accepts {r : Range α} (hfit : n + r.elems.length ≤ C.N)
    (h : ∀ e ∈ r.elems, e.throws = false) : r.refused C n = none := by
  rw [refused, if_neg fun hs => absurd hs.2 (Nat.not_lt_of_le hfit), stopped_none hfit h]

theorem appendRest_spec (hfit : ws.length + zs.length ≤ C.N) :
    appendRest C moved ys.length (ofList (ys ++ zs)) (ofList ws) =
      some (.ok (), ofList ys, ofList (ws ++ zs)) := by
  have hmove := @moveOut_spec _ moved (ys ++ zs).length zs ys
  rw [holding_length] at hmove
  have hlen : (zs.map fun z => (⟨.value z, false⟩ : New α)).length < 2 ^ 63 := by
    rw [List.length_map]
    have := C.lt
    omega
  have happ := @append_range_spec _ C ws zs
    ⟨zs.map fun z => ⟨.value z, false⟩, true, fun _ => hlen⟩ (by omega)
    (List.forall₂_map_left_iff.2 (List.forall₂_same.2 fun z _ => rfl))
  rw [Range.accepts (by simpa using hfit) (by simp)] at happ
  have herase := erase_range_spec ys (zs.map moved) []
  simp only [List.append_nil, List.length_append, List.length_map] at herase
  rw [appendRest, ofList_size, List.length_append, Nat.add_sub_cancel_left, hmove]
  simp only [Option.bind_some, dif_pos hlen]
  rw [happ]
  simp only [appended, Option.bind_some, holding_size, List.length_append]
  rw [ofList, List.length_append, List.length_map] at herase
  rw [herase]
  rfl

theorem swapLoop_longer (h : xs.length = ys.length) (zs : List α) :
    swapLoop xs.length 0 (ofList (xs ++ zs)) (ofList ys) =
      some (ofList (ys ++ zs), ofList xs) := by
  have hloop := swapLoop_spec (n := (xs ++ zs).length) (m := ys.length) xs.length [] [] rfl
    (xs ++ zs) ys (by simp) (by omega)
  rw [List.take_left, List.drop_left, h, List.take_length, List.drop_length, List.append_nil,
    ← h] at hloop
  simpa [ofList, h] using hloop

theorem swapLoop_shorter (h : xs.length = ys.length) (zs : List α) :
    swapLoop xs.length 0 (ofList xs) (ofList (ys ++ zs)) =
      some (ofList ys, ofList (xs ++ zs)) := by
  have hloop := swapLoop_spec (n := xs.length) (m := (ys ++ zs).length) ys.length [] [] rfl
    xs (ys ++ zs) (by omega) (by simp)
  rw [List.take_left, List.drop_left, ← h, List.take_length, List.drop_length, List.append_nil,
    h] at hloop
  simpa [ofList, h] using hloop

theorem swap_spec (hxs : xs.length ≤ C.N) (hys : ys.length ≤ C.N) :
    swap C moved (ofList xs) (ofList ys) = some (.ok (), ofList ys, ofList xs) := by
  rcases Nat.le_total ys.length xs.length with hle | hle
  · obtain ⟨as, zs, rfl, has⟩ : ∃ as zs, xs = as ++ zs ∧ as.length = ys.length :=
      ⟨xs.take ys.length, xs.drop ys.length, (List.take_append_drop ..).symm,
        List.length_take_of_le hle⟩
    have hmin : min (as ++ zs).length ys.length = as.length := by simp [has]
    simp only [swap, ofList_size, hmin]
    rw [swapLoop_longer has, Option.bind_some]
    simp only [ofList_size, has]
    cases zs with
    | nil => simp
    | cons z zs =>
      rw [if_pos (by simp), appendRest_spec (by simpa using hxs)]
  · obtain ⟨bs, zs, rfl, hbs⟩ : ∃ bs zs, ys = bs ++ zs ∧ xs.length = bs.length :=
      ⟨ys.take xs.length, ys.drop xs.length, (List.take_append_drop ..).symm,
        (List.length_take_of_le hle).symm⟩
    have hmin : min xs.length (bs ++ zs).length = xs.length := by simp [hbs]
    simp only [swap, ofList_size, hmin]
    have hle : ¬ xs.length < (ofList bs).cur_size_ := by simp [hbs]
    rw [swapLoop_shorter hbs, Option.bind_some]
    dsimp only
    rw [if_neg hle]
    cases zs with
    | nil => simp [hbs]
    | cons z zs =>
      rw [if_pos (by simp), appendRest_spec (by simpa [hbs] using hys)]
      rfl

end Swap

/-- The calls that edit the elements. -/
inductive Edit (α : Type)
  | emplace (pos : Nat) (args : Arg α)
  | insert_value (pos : Nat) (value : Arg α)
  | insert_count (pos count : Nat) (value : Arg α)
  | insert_iterators (pos : Nat) (r : Range α)
  | insert_range (pos : Nat) (r : Range α)
  | erase_at (pos : Nat)
  | erase_range (first last : Nat)
  | erase (value : Arg α)
  | erase_if (pred : α → Bool)

/-- No constructor throws. -/
def never : Nat → Bool := fun _ => false

def Edit.run [DecidableEq α] (C : Capacity) (moved : α → α) : Edit α → Call α Nat
  | .emplace pos args => InplaceVector.emplace C pos args never
  | .insert_value pos value => InplaceVector.insert_value C pos value never
  | .insert_count pos count value => InplaceVector.insert_count C pos count value never
  | .insert_iterators pos r => InplaceVector.insert_iterators C pos r
  | .insert_range pos r => InplaceVector.insert_range C pos r
  | .erase_at pos => InplaceVector.erase_at pos
  | .erase_range first last => InplaceVector.erase_range first last
  | .erase value => InplaceVector.erase moved value
  | .erase_if pred => InplaceVector.erase_if moved pred

/-- The range gives the elements `ys`, and no constructor throws. -/
def Range.Gives (r : Range α) (xs ys : List α) : Prop :=
  List.Forall₂ (fun e y => e.throws = false ∧ e.arg.of xs = some y) r.elems ys

/-- The result and the list that an edit of the list `xs` should give. -/
inductive Edit.Yields [DecidableEq α] (xs : List α) : Edit α → Nat → List α → Prop
  | emplace {i : Nat} {args : Arg α} {x : α} : i ≤ xs.length → args.of xs = some x →
      Yields xs (.emplace i args) i (xs.take i ++ x :: xs.drop i)
  | insert_value {i : Nat} {value : Arg α} {x : α} : i ≤ xs.length → value.of xs = some x →
      Yields xs (.insert_value i value) i (xs.take i ++ x :: xs.drop i)
  | insert_count {i count : Nat} {value : Arg α} {x : α} : i ≤ xs.length → value.of xs = some x →
      Yields xs (.insert_count i count value) i (xs.take i ++ List.replicate count x ++ xs.drop i)
  | insert_iterators : i ≤ xs.length → Range.Gives r xs ys →
      Yields xs (.insert_iterators i r) i (xs.take i ++ ys ++ xs.drop i)
  | insert_range : i ≤ xs.length → Range.Gives r xs ys →
      Yields xs (.insert_range i r) i (xs.take i ++ ys ++ xs.drop i)
  | erase_at : i < xs.length → Yields xs (.erase_at i) i (xs.take i ++ xs.drop (i + 1))
  | erase_range : i ≤ j → j ≤ xs.length →
      Yields xs (.erase_range i j) i (xs.take i ++ xs.drop j)
  | erase : value.of xs = some v →
      Yields xs (.erase value) (xs.count v) (xs.filter (· ≠ v))
  | erase_if : Yields xs (.erase_if pred) (xs.countP pred) (xs.filter (!pred ·))

/-- No copies are inserted into an empty vector, and the value of an erasure is not an element that
the erasure overwrites too soon. -/
def Edit.Regular [DecidableEq α] (xs : List α) : Edit α → Prop
  | .insert_count _ count _ => ¬ (count = 0 ∧ xs = [])
  | .erase (.element j) => ∀ v, xs[j]? = some v → Undisturbed v j 0 xs
  | _ => True

section Edits

variable {α : Type} {C : Capacity} {moved : α → α} {xs ys : List α}

theorem ofList_injective : Function.Injective (ofList (α := α)) := by
  intro xs ys h
  refine List.ext_getElem? fun i => ?_
  exact congrFun (congrArg Vec.slots h) i

theorem Range.Gives.inserts {r : Range α} (h : r.Gives xs ys) (hxs : xs.length ≤ C.N)
    (hi : i ≤ xs.length) (hys : (insertAt i xs ys).length ≤ C.N) :
    insert_range C i r (ofList xs) = some (.ok i, ofList (insertAt i xs ys)) := by
  have hlen := h.length_eq
  have hthrows : ∀ e ∈ r.elems, e.throws = false := by
    intro e he
    obtain ⟨k, hk, rfl⟩ := List.mem_iff_getElem.1 he
    exact (h.get hk (hlen ▸ hk)).1
  have hfit : xs.length + r.elems.length ≤ C.N := by
    simp only [insertAt, List.length_append, List.length_take, List.length_drop] at hys
    omega
  rw [insert_range_spec hxs hi (h.imp fun _ _ h => h.2), Range.accepts hfit hthrows]
  rfl

theorem erase_range_at (hij : i ≤ j) (hj : j ≤ xs.length) :
    erase_range i j (ofList xs) = some (.ok i, ofList (xs.take i ++ xs.drop j)) := by
  have herase := erase_range_spec (xs.take i) ((xs.drop i).take (j - i)) (xs.drop j)
  have hsplit : xs.take i ++ (xs.drop i).take (j - i) ++ xs.drop j = xs := by
    rw [List.append_assoc, show xs.drop j = (xs.drop i).drop (j - i) by
      rw [List.drop_drop, Nat.add_sub_cancel' hij], List.take_append_drop, List.take_append_drop]
  have hlen : (xs.take i ++ (xs.drop i).take (j - i)).length = j := by
    simp only [List.length_append, List.length_take, List.length_drop]
    omega
  rwa [hsplit, hlen, List.length_take_of_le (by omega)] at herase

theorem refused_never (h : n + count ≤ C.N) : refused C n count never = none := by
  have hnever : ∀ i < count, never (n + i) = false := fun _ _ => rfl
  rw [refused, if_neg (Nat.not_lt_of_le h), if_pos hnever]

variable [DecidableEq α]

theorem erase_iff {value : Arg α} (hv : value.of xs = some v) :
    erase moved value (ofList xs) = some (.ok (xs.count v), ofList (xs.filter (· ≠ v))) ↔
      (Edit.erase value).Regular xs := by
  have hcount : xs.length - (xs.filter (· ≠ v)).length = xs.count v := by
    have := List.length_eq_countP_add_countP (· == v) (l := xs)
    have hnot : xs.countP (fun x => decide ¬ (x == v) = true) = (xs.filter (· ≠ v)).length := by
      rw [List.countP_eq_length_filter]
      simp
    rw [List.count]
    omega
  have hiff : erase moved value (ofList xs) =
      some (.ok (xs.count v), ofList (xs.filter (· ≠ v))) ↔
        survivors value v xs = xs.filter (· ≠ v) := by
    rw [erase_spec moved hv, Option.some.injEq, Prod.mk.injEq]
    constructor
    · exact fun h => ofList_injective h.2
    · intro h
      rw [h, hcount]
      exact ⟨rfl, rfl⟩
  rw [hiff]
  cases value with
  | value w => simp [survivors_value, Edit.Regular]
  | element j =>
    rw [survivors_element_iff hv]
    constructor
    · intro h w hw
      obtain rfl := Option.some.inj (hv.symm.trans hw)
      exact h
    · exact fun h => h v hv

/-- The value is overwritten by 2, for which the last element is compared. -/
example : survivors (.element 0) 1 [1, 2, 1] = [2, 1] := by decide

/-- A call does to the vector what the edit does to the list exactly when it is regular. -/
theorem Edit.run_iff {e : Edit α} (h : e.Yields xs r ys) (hxs : xs.length ≤ C.N)
    (hys : ys.length ≤ C.N) :
    e.run C moved (ofList xs) = some (.ok r, ofList ys) ↔ e.Regular xs := by
  cases h with
  | @emplace i args x hi hx =>
    refine iff_of_true ?_ trivial
    simp only [List.length_append, List.length_cons, List.length_take, List.length_drop] at hys
    rw [Edit.run, emplace_spec hx hxs hi, refused_never (by omega)]
    simp [inserted, insertAt]
  | @insert_value i value x hi hx =>
    refine iff_of_true ?_ trivial
    simp only [List.length_append, List.length_cons, List.length_take, List.length_drop] at hys
    rw [Edit.run, InplaceVector.insert_value,
      insert_count_spec hx hi (lt_modulus (C := C) (by omega)) (by simp), refused_never (by omega)]
    simp [inserted, insertAt]
  | @insert_count i count value x hi hx =>
    simp only [List.length_append, List.length_replicate, List.length_take,
      List.length_drop] at hys
    by_cases hnone : count = 0 ∧ xs = []
    · obtain ⟨rfl, rfl⟩ := hnone
      refine iff_of_false ?_ fun h => h ⟨rfl, rfl⟩
      rw [Edit.run, insert_nothing]
      exact nofun
    · refine iff_of_true ?_ hnone
      rw [Edit.run, insert_count_spec hx hi (lt_modulus (C := C) (by omega)) hnone,
        refused_never (by omega)]
      rfl
  | insert_iterators hi hr =>
    refine iff_of_true ?_ trivial
    rw [Edit.run, insert_iterators_eq]
    exact hr.inserts hxs hi hys
  | insert_range hi hr => exact iff_of_true (hr.inserts hxs hi hys) trivial
  | erase_at hi => exact iff_of_true (erase_range_at (Nat.le_succ _) hi) trivial
  | erase_range hij hj => exact iff_of_true (erase_range_at hij hj) trivial
  | erase hv => exact erase_iff hv
  | erase_if => exact iff_of_true (erase_if_spec moved _ xs) trivial

/-- The structural edits of a vector are those of a list, apart from copies none of which go into an
empty vector and from the erasure of a value that the erasure overwrites. -/
theorem edits_refine_lists (hxs : xs.length ≤ C.N) :
    (∀ e r ys, Edit.Yields xs e r ys → ys.length ≤ C.N →
      (e.run C moved (ofList xs) = some (.ok r, ofList ys) ↔ e.Regular xs)) ∧
    ∀ ys, ys.length ≤ C.N →
      swap C moved (ofList xs) (ofList ys) = some (.ok (), ofList ys, ofList xs) :=
  ⟨fun _ _ _ h hys => Edit.run_iff h hxs hys, fun _ hys => swap_spec hxs hys⟩

end Edits

def four : Capacity := ⟨4, by decide, by decide⟩

/-- Two copies of the last element are inserted in front of it. -/
theorem edits_refine_lists_copies :
    (Edit.insert_count 1 2 (.element 1)).run four id (ofList [5, 6]) =
      some (.ok 1, ofList [5, 6, 6, 6]) :=
  ((@edits_refine_lists _ four id [5, 6] _ (by decide)).1 _ 1 _
    (@Edit.Yields.insert_count _ _ _ 1 2 (.element 1) 6 (by decide) rfl) (by decide)).2
    (by simp [Edit.Regular])

theorem edits_not_lists :
    ¬ ∀ (xs : List Nat) e r ys, xs.length ≤ four.N → Edit.Yields xs e r ys → ys.length ≤ four.N →
      e.run four id (ofList xs) = some (.ok r, ofList ys) := by
  intro h
  have := h [] _ 0 _ (by decide)
    (@Edit.Yields.insert_count _ _ _ 0 0 (.value 7) 7 (by decide) rfl) (by decide)
  rw [Edit.run, insert_nothing] at this
  cases this

end Coio.InplaceVector
