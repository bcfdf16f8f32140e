import Coio.InplaceVector.Insert
import Mathlib.Data.List.TakeWhile

namespace Coio.InplaceVector
set_option autoImplicit true

section Loop

/-- The elements that the loop of `remove_if` keeps, where the predicate depends on what the slots
hold: `s` says so, and changes to `next s k x` when `x` is moved to the slot `k`. -/
def kept (p : σ → α → Bool) (next : σ → Nat → α → σ) : List α → Nat → σ → List α
  | [], _, _ => []
  | x :: rest, k, s =>
    if p s x then kept p next rest k s else x :: kept p next rest (k + 1) (next s k x)

variable {α : Type} {n : Nat} {moved : α → α} {pred : α → Call α Bool} {p : σ → α → Bool}
  {next : σ → Nat → α → σ} {Sees : σ → List α → Prop}

theorem removeLoop_spec
    (hpred : ∀ s zs x, Sees s zs → pred x (holding zs n) = some (.ok (p s x), holding zs n))
    (hnext : ∀ s ks y js x rest, Sees s (ks ++ y :: js ++ x :: rest) → p s x = false →
      Sees (next s ks.length x) (ks ++ x :: js ++ moved x :: rest)) (rest : List α) :
    ∀ s ks js, js ≠ [] → Sees s (ks ++ js ++ rest) → ∃ ws,
      ks.length + (kept p next rest ks.length s).length + ws.length =
        ks.length + js.length + rest.length ∧
      removeLoop moved pred rest.length (ks ++ js).length ks.length (holding (ks ++ js ++ rest) n) =
        some (.ok (ks ++ kept p next rest ks.length s).length,
          holding (ks ++ kept p next rest ks.length s ++ ws) n) := by
  induction rest with
  | nil =>
    intro s ks js _ _
    exact ⟨js, by simp [kept], by simp [kept, removeLoop]⟩
  | cons x rest ih =>
    intro s ks js hne hs
    have hx : (ks ++ js ++ x :: rest)[(ks ++ js).length]? = some x := by simp
    have htest := hpred s _ x hs
    rw [List.length_cons, removeLoop, bind_ok (load_holding hx), bind_ok htest]
    cases hp : p s x with
    | true =>
      obtain ⟨ws, hlen, hrun⟩ := ih s ks (js ++ [x]) (by simp) (by simpa using hs)
      refine ⟨ws, ?_, ?_⟩
      · simp only [kept, hp, if_true, hlen, List.length_append, List.length_cons, List.length_nil]
        omega
      · simp only [kept, hp, if_true]
        simpa [Nat.add_assoc] using hrun
    | false =>
      obtain ⟨y, js, rfl⟩ := List.exists_cons_of_ne_nil hne
      have hs' := hnext s ks y js x rest hs hp
      obtain ⟨ws, hlen, hrun⟩ := ih (next s ks.length x) (ks ++ [x]) (js ++ [moved x]) (by simp)
        (by simpa using hs')
      have hleave := assign_at_holding (ks ++ y :: js) rest x (moved x) n
      have htake := assign_at_holding ks (js ++ moved x :: rest) y x n
      simp only [List.append_assoc, List.cons_append] at hleave htake
      refine ⟨ws, ?_, ?_⟩
      · simp only [kept, hp, Bool.false_eq_true, if_false, List.length_append, List.length_cons,
          List.length_nil, Nat.zero_add] at hlen ⊢
        omega
      · simp only [kept, hp, Bool.false_eq_true, if_false, List.append_assoc, List.cons_append]
        rw [bind_ok hleave, bind_ok htake]
        simpa [Nat.add_assoc, Nat.add_comm, Nat.add_left_comm] using hrun

theorem find_if_spec {p : α → Bool} {zs : List α} (rest : List α) :
    ∀ as, zs = as ++ rest →
      (∀ x, pred x (holding zs n) = some (.ok (p x), holding zs n)) →
      find_if pred rest.length as.length (holding zs n) =
        some (.ok (as.length + (rest.takeWhile (!p ·)).length), holding zs n) := by
  induction rest with
  | nil =>
    intro as _ _
    rfl
  | cons x rest ih =>
    intro as hzs hpred
    have hx : zs[as.length]? = some x := by simp [hzs]
    rw [List.length_cons, find_if, bind_ok (load_holding hx), bind_ok (hpred x)]
    cases hp : p x with
    | true => simp [hp]
    | false =>
      have hrun := ih (as ++ [x]) (by simp [hzs]) hpred
      simp only [Bool.false_eq_true, if_false]
      rw [List.length_append, List.length_singleton] at hrun
      rw [hrun, List.takeWhile_cons, hp]
      simp [Nat.add_assoc, Nat.add_comm]

/-- What `remove_if` keeps of a list. -/
def remaining (p : σ → α → Bool) (next : σ → Nat → α → σ) (s : σ) (xs : List α) : List α :=
  let as := xs.takeWhile (!p s ·)
  as ++ kept p next (xs.drop (as.length + 1)) as.length s

/-- After the elements that remain come as many others as were removed. -/
theorem remove_if_spec {xs : List α}
    (hpred : ∀ s zs x, Sees s zs →
      pred x (holding zs xs.length) = some (.ok (p s x), holding zs xs.length))
    (hnext : ∀ s ks y js x rest, Sees s (ks ++ y :: js ++ x :: rest) → p s x = false →
      Sees (next s ks.length x) (ks ++ x :: js ++ moved x :: rest)) (hs : Sees s xs) :
    ∃ ws, (remaining p next s xs ++ ws).length = xs.length ∧
      remove_if moved pred (ofList xs) = some (.ok (remaining p next s xs).length,
        holding (remaining p next s xs ++ ws) xs.length) := by
  have hfind := find_if_spec (n := xs.length) xs [] rfl fun x => hpred s xs x hs
  rw [List.length_nil, Nat.zero_add, List.nil_append] at hfind
  rw [remove_if, size_bind, ofList_size, ofList, bind_ok hfind]
  unfold remaining
  cases hd : xs.dropWhile (!p s ·) with
  | nil =>
    have htake : xs.takeWhile (!p s ·) = xs := by
      have := List.takeWhile_append_dropWhile (p := (!p s ·)) (l := xs)
      rwa [hd, List.append_nil] at this
    have hdrop : xs.drop (xs.length + 1) = [] := List.drop_eq_nil_of_le (Nat.le_succ _)
    have hcount : xs.length - (xs.length + 1) = 0 := by omega
    refine ⟨[], ?_, ?_⟩
    · simp [htake, hdrop, kept]
    · simp [htake, hdrop, hcount, kept, removeLoop]
  | cons x rest =>
    have hxs : xs = xs.takeWhile (!p s ·) ++ [x] ++ rest := by
      have := List.takeWhile_append_dropWhile (p := (!p s ·)) (l := xs)
      rw [hd] at this
      simpa using this.symm
    obtain ⟨as, has⟩ : ∃ as, as = xs.takeWhile (!p s ·) := ⟨_, rfl⟩
    rw [← has] at hxs ⊢
    obtain ⟨ws, hlen, hrun⟩ := removeLoop_spec hpred hnext rest s as [x] (by simp) (hxs ▸ hs)
    have hdrop : xs.drop (as.length + 1) = rest := by
      rw [hxs]
      exact List.drop_left' (by simp)
    have hxs' : xs.length = as.length + 1 + rest.length := by
      rw [hxs, List.length_append, List.length_append, List.length_singleton]
    have hcount : xs.length - (as.length + 1) = rest.length := by omega
    refine ⟨ws, ?_, ?_⟩
    · simp only [hdrop, List.length_append, List.length_singleton] at hlen ⊢
      rw [hxs']
      omega
    · simp only [hdrop, hcount]
      rw [← hxs, List.length_append, List.length_singleton] at hrun
      exact hrun

theorem eraseRest_spec (xs ws : List α) :
    eraseRest xs.length (ofList (xs ++ ws)) = some (.ok ws.length, ofList xs) := by
  have herase := erase_range_spec xs ws []
  simp only [List.append_nil] at herase
  rw [eraseRest, size_bind, ofList_size, bind_ok herase, pure_call, List.length_append,
    Nat.add_sub_cancel_left]

end Loop

section Erase

variable {α : Type} {moved : α → α} {xs : List α}

theorem kept_const {p : σ → α → Bool} {next : σ → Nat → α → σ} (hs : ∀ k x, next s k x = s)
    (xs : List α) (k : Nat) : kept p next xs k s = xs.filter (!p s ·) := by
  induction xs generalizing k with
  | nil => rfl
  | cons x xs ih => cases hp : p s x <;> simp [kept, hp, hs, ih]

/-- The first elements that are kept and the others after the first match. -/
theorem filter_eq_takeWhile (p : α → Bool) (xs : List α) :
    xs.filter p = xs.takeWhile p ++ (xs.drop ((xs.takeWhile p).length + 1)).filter p := by
  induction xs with
  | nil => rfl
  | cons x xs ih => cases hp : p x <;> simp [hp, ← ih]

theorem remaining_const {p : σ → α → Bool} {next : σ → Nat → α → σ} (hs : ∀ k x, next s k x = s)
    (xs : List α) : remaining p next s xs = xs.filter (!p s ·) := by
  rw [remaining, kept_const hs, ← filter_eq_takeWhile]

theorem erase_if_spec (moved : α → α) (pred : α → Bool) (xs : List α) :
    erase_if moved pred (ofList xs) =
      some (.ok (xs.countP pred), ofList (xs.filter (!pred ·))) := by
  have hkeep : remaining (fun _ : Unit => pred) (fun _ _ _ => ()) () xs = xs.filter (!pred ·) :=
    remaining_const (fun _ _ => rfl) xs
  obtain ⟨ws, hlen, hrun⟩ := @remove_if_spec Unit _ moved (fun x => pure (pred x)) _ _
    (fun _ _ => True) () xs (fun _ _ _ _ => rfl) (fun _ _ _ _ _ _ _ _ => trivial) trivial
  rw [hkeep] at hlen hrun
  rw [← hlen, holding_length] at hrun
  have hcount : ws.length = xs.countP pred := by
    have := List.length_eq_countP_add_countP pred (l := xs)
    have hnot : xs.countP (fun x => decide ¬ pred x = true) = (xs.filter (!pred ·)).length := by
      rw [List.countP_eq_length_filter]
      simp
    rw [List.length_append] at hlen
    omega
  rw [erase_if, bind_ok hrun, eraseRest_spec, hcount]

variable [DecidableEq α]

/-- The value that a reference refers to after the element `x` has moved to the slot `k`. -/
def Arg.next : Arg α → α → Nat → α → α
  | value _, v, _, _ => v
  | element j, v, k, x => if k = j then x else v

/-- What `erase(c, value)` leaves, where the value is `v` at first. -/
def survivors (value : Arg α) (v : α) (xs : List α) : List α :=
  remaining (fun v x => decide (x = v)) value.next v xs

theorem Arg.of_next {value : Arg α} (ks js rest : List α) (y x z : α)
    (hv : value.of (ks ++ y :: js ++ x :: rest) = some v) (hx : decide (x = v) = false) :
    value.of (ks ++ x :: js ++ z :: rest) = some (value.next v ks.length x) := by
  cases value with
  | value w => exact hv
  | element j =>
    simp only [Arg.of, Arg.next] at hv ⊢
    split
    · rename_i hj
      subst hj
      simp
    · rename_i hj
      have hne : j ≠ (ks ++ y :: js).length := by
        rintro rfl
        rw [List.getElem?_append_right (Nat.le_refl _), Nat.sub_self] at hv
        simp only [List.getElem?_cons_zero, Option.some.injEq] at hv
        simp [hv] at hx
      have hne' : j ≠ (ks ++ x :: js).length := by simpa using hne
      rw [getElem?_middle_ne _ rest z x hne', ← hv, List.append_assoc, List.append_assoc]
      exact getElem?_middle_ne ks (js ++ x :: rest) x y (Ne.symm hj)

theorem erase_spec (moved : α → α) {value : Arg α} (hv : value.of xs = some v) :
    erase moved value (ofList xs) = some (.ok (xs.length - (survivors value v xs).length),
      ofList (survivors value v xs)) := by
  have hpred : ∀ v zs x, value.of zs = some v →
      (do return decide (x = (← value.read)) : Call α Bool) (holding zs xs.length) =
        some (.ok (decide (x = v)), holding zs xs.length) := by
    intro v zs x hv
    have hread := Arg.read_holding hv [] xs.length
    rw [List.append_nil] at hread
    rw [bind_ok hread]
    rfl
  obtain ⟨ws, hlen, hrun⟩ := @remove_if_spec _ _ moved _ _ value.next _ _ _ hpred
    (fun v ks y js x rest => Arg.of_next ks js rest y x (moved x)) hv
  have hcount : ws.length = xs.length - (survivors value v xs).length := by
    rw [← hlen, List.length_append]
    exact (Nat.add_sub_cancel_left ..).symm
  rw [← hcount]
  rw [← hlen, holding_length] at hrun
  exact (bind_ok hrun).trans (eraseRest_spec _ ws)

/-- After the value has been overwritten by `v` nothing happens to it any more. -/
theorem kept_past (v : α) (rest : List α) (hj : j < k) :
    kept (fun v x => decide (x = v)) (Arg.element j).next rest k v = rest.filter (· ≠ v) := by
  induction rest generalizing k with
  | nil => rfl
  | cons x rest ih =>
    have hne : k ≠ j := by omega
    by_cases hx : x = v
    · simp [kept, hx, ih hj]
    · simp [kept, hx, Arg.next, hne, ih (Nat.lt_succ_of_lt hj)]

theorem filter_ne_eq_iff {x v : α} (h : x ≠ v) (rest : List α) :
    rest.filter (· ≠ x) = rest.filter (· ≠ v) ↔ v ∉ rest ∧ x ∉ rest := by
  constructor
  · intro he
    refine ⟨fun hv => ?_, fun hx => ?_⟩
    · have hmem : v ∈ rest.filter (· ≠ v) := by
        rw [← he]
        exact List.mem_filter.2 ⟨hv, by simpa using h.symm⟩
      simp at hmem
    · have hmem : x ∈ rest.filter (· ≠ x) := by
        rw [he]
        exact List.mem_filter.2 ⟨hx, by simpa using h⟩
      simp at hmem
  · rintro ⟨hv, hx⟩
    have hall : ∀ z, z ∉ rest → rest.filter (· ≠ z) = rest := by
      intro z hz
      refine List.filter_eq_self.2 fun y hy => ?_
      have hne : y ≠ z := by
        rintro rfl
        exact hz hy
      simpa using hne
    rw [hall x hx, hall v hv]

/-- The element that comes into the slot `j` of the value `v`, counted from `k` on, has neither `v`
nor its own like behind it. -/
def Undisturbed (v : α) (j k : Nat) (xs : List α) : Prop :=
  ∀ as y bs, xs = as ++ y :: bs → y ≠ v → k + (as.filter (· ≠ v)).length = j → v ∉ bs ∧ y ∉ bs

theorem kept_eq_filter_iff (v : α) (j k : Nat) (rest : List α) :
    kept (fun v x => decide (x = v)) (Arg.element j).next rest k v = rest.filter (· ≠ v) ↔
      Undisturbed v j k rest := by
  induction rest generalizing k with
  | nil => simp [kept, Undisturbed]
  | cons x rest ih =>
    by_cases hx : x = v
    · have hshift : Undisturbed v j k (x :: rest) ↔ Undisturbed v j k rest := by
        constructor
        · intro h as y bs hr hy hk
          exact h (x :: as) y bs (by rw [hr, List.cons_append]) hy (by simpa [hx] using hk)
        · intro h as y bs hr hy hk
          cases as with
          | nil => exact absurd ((List.cons.inj hr).1.symm.trans hx) hy
          | cons a as =>
            obtain ⟨rfl, rfl⟩ := List.cons.inj hr
            exact h as y bs rfl hy (by simpa [hx] using hk)
      rw [hshift, ← ih]
      simp [kept, hx]
    · have hkept : kept (fun v x => decide (x = v)) (Arg.element j).next (x :: rest) k v =
          x :: kept (fun v x => decide (x = v)) (Arg.element j).next rest (k + 1)
            (if k = j then x else v) := by simp [kept, hx, Arg.next]
      have hfilter : (x :: rest).filter (· ≠ v) = x :: rest.filter (· ≠ v) := by simp [hx]
      rw [hkept, hfilter, List.cons_inj_right]
      by_cases hk : k = j
      · rw [if_pos hk, kept_past x rest (by omega), filter_ne_eq_iff hx]
        constructor
        · intro h as y bs hr hy hkj
          cases as with
          | nil =>
            obtain ⟨rfl, rfl⟩ := List.cons.inj hr
            exact h
          | cons a as =>
            obtain ⟨rfl, rfl⟩ := List.cons.inj hr
            simp only [List.filter_cons, decide_not, hx, decide_false, Bool.not_false, if_true,
              List.length_cons] at hkj
            omega
        · intro h
          exact h [] x rest rfl hx (by simpa using hk)
      · rw [if_neg hk, ih]
        constructor
        · intro h as y bs hr hy hkj
          cases as with
          | nil =>
            simp only [List.filter_nil, List.length_nil, Nat.add_zero] at hkj
            exact absurd hkj hk
          | cons a as =>
            obtain ⟨rfl, rfl⟩ := List.cons.inj hr
            refine h as y bs rfl hy ?_
            rw [← hkj]
            simp [hx, Nat.add_assoc, Nat.add_comm]
        · intro h as y bs hr hy hkj
          refine h (x :: as) y bs (by rw [hr, List.cons_append]) hy ?_
          rw [← hkj]
          simp [hx, Nat.add_assoc, Nat.add_comm]

theorem survivors_value (w v : α) (xs : List α) :
    survivors (.value w) v xs = xs.filter (· ≠ v) := by
  rw [survivors, remaining_const fun _ _ => rfl]
  simp

theorem survivors_element_iff (h : xs[j]? = some v) :
    survivors (.element j) v xs = xs.filter (· ≠ v) ↔ Undisturbed v j 0 xs := by
  obtain ⟨as, has⟩ : ∃ as, as = xs.takeWhile (· ≠ v) := ⟨_, rfl⟩
  have hkeep : as.filter (· ≠ v) = as := by
    rw [has]
    exact List.filter_eq_self.2 fun x hx => List.mem_takeWhile_imp (p := (· ≠ v)) hx
  have hfilter : xs.filter (· ≠ v) = as ++ (xs.drop (as.length + 1)).filter (· ≠ v) := by
    rw [has]
    exact filter_eq_takeWhile _ xs
  have hsurvivors : survivors (.element j) v xs = as ++
      kept (fun v x => decide (x = v)) (Arg.element j).next (xs.drop (as.length + 1)) as.length
        v := by
    simp [survivors, remaining, has]
  have hv : v ∈ xs := List.mem_of_getElem? h
  obtain ⟨rest, hxs⟩ : ∃ rest, xs = as ++ v :: rest := by
    cases hd : xs.dropWhile (· ≠ v) with
    | nil =>
      have := List.dropWhile_eq_nil_iff.1 hd v hv
      simp at this
    | cons x rest =>
      have hx : x = v := by
        have := List.head_dropWhile_not (· ≠ v) (l := xs) (by rw [hd]; simp)
        simp only [hd, List.head_cons] at this
        simpa using this
      refine ⟨rest, ?_⟩
      rw [← hx, ← hd, has, List.takeWhile_append_dropWhile]
  have hdrop : xs.drop (as.length + 1) = rest := by
    rw [hxs, ← List.singleton_append, ← List.append_assoc]
    exact List.drop_left' (by simp)
  rw [hsurvivors, hfilter, List.append_right_inj, kept_eq_filter_iff, hdrop]
  constructor
  · intro hr bs y cs hb hy hk
    rw [hxs] at hb
    have hle : as.length ≤ j := by
      by_contra hlt
      have hj := h
      rw [hxs, List.getElem?_append_left (by omega)] at hj
      have := hkeep ▸ List.mem_of_getElem? hj
      simp at this
    rcases List.append_eq_append_iff.1 hb with ⟨ds, rfl, hd⟩ | ⟨ds, rfl, hd⟩
    · cases ds with
      | nil => exact absurd (List.cons.inj hd).1.symm hy
      | cons d ds =>
        obtain ⟨rfl, rfl⟩ := List.cons.inj hd
        refine hr ds y cs rfl hy ?_
        rw [← hk, List.filter_append, hkeep]
        simp
    · have hlen := List.length_filter_le (· ≠ v) bs
      obtain rfl : ds = [] := by
        rw [← List.length_eq_zero_iff]
        rw [List.length_append] at hle
        omega
      exact absurd (List.cons.inj hd).1 hy
  · intro hr bs y cs hb hy hk
    refine hr (as ++ v :: bs) y cs (by rw [hxs, hb]; simp) hy ?_
    rw [List.filter_append, hkeep]
    simpa using hk

end Erase

end Coio.InplaceVector
