import Mathlib.Logic.Function.Basic

namespace Transition
set_option autoImplicit true

theorem enabled_iff {p : Prop} [Decidable p] {a b : σ} :
    (if p then some a else none) = some b ↔ p ∧ a = b := by
  simp only [Option.ite_none_right_eq_some, Option.some.injEq]

/-- A party that has the property keeps it when a party without it moves. -/
theorem exists_update [DecidableEq κ] {p : κ → α} {P : α → Prop} (h : ∃ j, P (p j))
    (hk : ¬ P (p k)) (v : α) : ∃ j, P (Function.update p k v j) := by
  obtain ⟨j, hj⟩ := h
  refine ⟨j, ?_⟩
  rw [Function.update_of_ne]
  · exact hj
  · rintro rfl
    exact hk hj

/-- A move to a value without the property does not give it to another party. -/
theorem exists_of_update [DecidableEq κ] {p : κ → α} {P : α → Prop} {v : α}
    (h : ∃ j, P (Function.update p k v j)) (hv : ¬ P v) : ∃ j, P (p j) := by
  obtain ⟨j, hj⟩ := h
  by_cases hjk : j = k
  · rw [hjk, Function.update_self] at hj
    exact absurd hj hv
  · rw [Function.update_of_ne hjk] at hj
    exact ⟨j, hj⟩

/-- A move changes what holds of the party that moves only. -/
theorem forall_update [DecidableEq κ] {p : κ → α} {P : κ → α → Prop} {v : α} (h : ∀ j, P j (p j))
    (hk : P k v) (j : κ) : P j (Function.update p k v j) := by
  by_cases hj : j = k
  · subst hj
    rwa [Function.update_self]
  · rw [Function.update_of_ne hj]
    exact h j

/-- A move that keeps `f` of the party that moves keeps it everywhere. -/
theorem apply_update_of_eq [DecidableEq κ] {p : κ → α} {f : α → β} (h : f v = f (p k)) (j : κ) :
    f (Function.update p k v j) = f (p j) := by
  by_cases hj : j = k
  · rw [hj, Function.update_self, h]
  · rw [Function.update_of_ne hj]

/-- A guarded transition system: an action is enabled in a state when it has a successor. -/
structure System (σ : Type u) (α : Type v) where
  init : σ
  step : σ → α → Option σ

/-- The states that finitely many enabled actions lead to. -/
inductive System.Reachable (M : System σ α) : σ → Prop
  | init : Reachable M M.init
  | step : Reachable M s → M.step s a = some t → Reachable M t

/-- The state after a sequence of actions, if each of them is enabled in its turn. -/
def System.exec (M : System σ α) (s : σ) : List α → Option σ
  | [] => some s
  | a :: as => (M.step s a).bind fun t => M.exec t as

theorem System.exec_append (M : System σ α) (s : σ) (as bs : List α) :
    M.exec s (as ++ bs) = (M.exec s as).bind fun t => M.exec t bs := by
  induction as generalizing s with
  | nil => rfl
  | cons a as ih =>
    rw [List.cons_append, System.exec, System.exec, Option.bind_assoc]
    exact congrArg _ (funext ih)

theorem System.Reachable.exec {M : System σ α} (h : M.Reachable s) (as : List α)
    (he : M.exec s as = some t) : M.Reachable t := by
  induction as generalizing s with
  | nil =>
    cases he
    exact h
  | cons a as ih =>
    obtain ⟨u, hu, hr⟩ := Option.bind_eq_some_iff.1 he
    exact ih (h.step hu) hr

/-- Executions from the initial state give witnesses of reachability that can be computed. -/
theorem System.reachable_exec {M : System σ α} (as : List α)
    (he : M.exec M.init as = some t) : M.Reachable t :=
  Reachable.init.exec as he

/-- A property that holds initially and that every step from a reachable state preserves. -/
structure System.Invariant (M : System σ α) (I : σ → Prop) : Prop where
  init : I M.init
  step : ∀ s a t, M.Reachable s → I s → M.step s a = some t → I t

theorem System.Invariant.reachable {M : System σ α} (h : M.Invariant I) (hs : M.Reachable s) :
    I s := by
  induction hs with
  | init => exact h.init
  | step hr hs ih => exact h.step _ _ _ hr ih hs

end Transition
