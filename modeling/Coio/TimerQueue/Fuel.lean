import Coio.TimerQueue.Refinement

namespace Coio.TimerQueue
set_option autoImplicit true

variable [DecidableEq Op] [LinearOrder δ] {q : TimerQueue Op δ}

theorem pairUp_mono (h : q.pairUp n o merged = some r) (hn : n ≤ k) :
    q.pairUp k o merged = some r := by
  induction n generalizing k q o merged with
  | zero =>
    cases o with
    | none => cases k <;> exact h
    | some a => cases h
  | succ n ih =>
    cases o with
    | none => cases k <;> exact h
    | some a =>
      obtain ⟨k, rfl⟩ : ∃ m, k = m + 1 := ⟨k - 1, by omega⟩
      rw [pairUp] at h ⊢
      exact ih h (by omega)

theorem meldAll_mono (h : q.meldAll n result o = some r) (hn : n ≤ k) :
    q.meldAll k result o = some r := by
  induction n generalizing k q o result with
  | zero =>
    cases o with
    | none => cases k <;> exact h
    | some a => cases h
  | succ n ih =>
    cases o with
    | none => cases k <;> exact h
    | some a =>
      obtain ⟨k, rfl⟩ : ∃ m, k = m + 1 := ⟨k - 1, by omega⟩
      rw [meldAll] at h ⊢
      exact ih h (by omega)

theorem mergeChildren_mono (h : q.mergeChildren n o = some r) (hn : n ≤ k) :
    q.mergeChildren k o = some r := by
  cases o with
  | none => exact h
  | some first =>
    simp only [mergeChildren] at h ⊢
    split at h
    · cases h
    · cases h
    · rename_i p result hp
      rw [pairUp_mono hp hn]
      obtain ⟨m, hm, rfl⟩ := Option.map_eq_some_iff.1 h
      exact Option.map_eq_some_iff.2 ⟨m, meldAll_mono hm hn, rfl⟩

theorem popRoot_mono (h : q.popRoot n = some r) (hn : n ≤ k) : q.popRoot k = some r := by
  obtain ⟨top, htop, h⟩ := Option.bind_eq_some_iff.1 h
  obtain ⟨m, hm, rfl⟩ := Option.map_eq_some_iff.1 h
  exact Option.bind_eq_some_iff.2 ⟨top, htop,
    Option.map_eq_some_iff.2 ⟨m, mergeChildren_mono hm hn, rfl⟩⟩

/-- The fuel only has to be enough: more of it does not change what `remove()` does. -/
theorem remove_mono (h : q.remove n x = some r) (hn : n ≤ k) : q.remove k x = some r := by
  simp only [remove] at h ⊢
  split at h
  · rename_i hx
    rw [if_pos hx]
    obtain ⟨m, hm, rfl⟩ := Option.map_eq_some_iff.1 h
    exact Option.map_eq_some_iff.2 ⟨m, popRoot_mono hm hn, rfl⟩
  · rename_i hx
    rw [if_neg hx]
    split at h
    · rename_i hp
      rw [if_pos hp]
      exact h
    · rename_i hp
      rw [if_neg hp]
      obtain ⟨u, hu, h⟩ := Option.bind_eq_some_iff.1 h
      obtain ⟨m, hm, h⟩ := Option.bind_eq_some_iff.1 h
      exact Option.bind_eq_some_iff.2 ⟨u, hu,
        Option.bind_eq_some_iff.2 ⟨m, mergeChildren_mono hm hn, h⟩⟩

theorem takeReadyTimers_mono (h : q.takeReadyTimers fuel now n list = some r) (hf : fuel ≤ f)
    (hn : n ≤ k) : q.takeReadyTimers f now k list = some r := by
  induction n generalizing k q list with
  | zero =>
    unfold takeReadyTimers at h ⊢
    split at h
    · exact h
    · split at h
      · rename_i hlt
        rw [if_pos hlt]
        exact h
      · cases h
  | succ n ih =>
    obtain ⟨k, rfl⟩ : ∃ m, k = m + 1 := ⟨k - 1, by omega⟩
    unfold takeReadyTimers at h ⊢
    split at h
    · exact h
    · split at h
      · rename_i hlt
        rw [if_pos hlt]
        exact h
      · rename_i hlt
        rw [if_neg hlt]
        obtain ⟨m, hm, h⟩ := Option.bind_eq_some_iff.1 h
        exact Option.bind_eq_some_iff.2 ⟨m, popRoot_mono hm hf, ih h (by omega)⟩

/-- Whenever `remove()` has a result, it is that of the finite set. -/
theorem Represents.remove_eq {S : Finset Op} (h : Represents q S)
    (hq : q.remove fuel x = some (q', b)) :
    b = decide (x ∈ S) ∧ Represents q' (S.erase x) ∧ q'.deadline = q.deadline := by
  obtain ⟨p, hp, hr, hd⟩ := h.remove (x := x) (Nat.le_max_left S.card fuel)
  rw [remove_mono hq (Nat.le_max_right S.card fuel)] at hp
  obtain ⟨rfl, rfl⟩ := Prod.mk.inj (Option.some.inj hp)
  exact ⟨rfl, hr, hd⟩

/-- Whenever `take_ready_timers()` has a result, it is that of the finite set. -/
theorem Represents.takeReadyTimers_eq {S : Finset Op} (h : Represents q S)
    (hq : q.takeReadyTimers fuel now n [] = some (q', ready)) :
    Represents q' (S.filter fun x => now < q.deadline x) ∧ q'.deadline = q.deadline ∧
      ready.Nodup ∧ ∀ x, x ∈ ready ↔ x ∈ S ∧ q.deadline x ≤ now := by
  obtain ⟨p, l, hp, hr, hd, hn, hm, -⟩ := h.takeReadyTimers now []
    (Nat.le_max_left S.card fuel) (Nat.le_max_left S.card n)
  rw [takeReadyTimers_mono hq (Nat.le_max_right S.card fuel) (Nat.le_max_right S.card n),
    List.nil_append] at hp
  obtain ⟨rfl, rfl⟩ := Prod.mk.inj (Option.some.inj hp)
  exact ⟨hr, hd, hn, hm⟩

end Coio.TimerQueue
