import Mathlib.Logic.Function.Iterate

namespace Machine
set_option autoImplicit true

/-- The run of a deterministic machine from one state to another, with a property of every state
on the way. -/
inductive Runs (f : σ → σ) (P : σ → Prop) : σ → σ → Prop
  | refl : P s → Runs f P s s
  | head : P s → Runs f P (f s) t → Runs f P s t

/-- A deterministic machine gets from one state to another. -/
def Leads {σ : Type u} (f : σ → σ) (s t : σ) : Prop := ∃ n, f^[n] s = t

variable {σ : Type u} {f : σ → σ} {s t u : σ}

theorem Leads.refl (f : σ → σ) (s : σ) : Leads f s s := ⟨0, rfl⟩

theorem Leads.head (h : f s = u) (hu : Leads f u t) : Leads f s t := by
  obtain ⟨n, rfl⟩ := hu
  refine ⟨n + 1, ?_⟩
  rw [Function.iterate_succ_apply, h]

theorem Leads.trans (h : Leads f s t) (ht : Leads f t u) : Leads f s u := by
  obtain ⟨n, rfl⟩ := h
  obtain ⟨m, rfl⟩ := ht
  exact ⟨m + n, Function.iterate_add_apply f m n s⟩

/-- What every step preserves holds at the end. -/
theorem Leads.invariant {I : σ → Prop} (h : Leads f s t) (hs : I s) (hstep : ∀ u, I u → I (f u)) :
    I t := by
  obtain ⟨n, rfl⟩ := h
  induction n generalizing s with
  | zero => exact hs
  | succ n ih =>
    rw [Function.iterate_succ_apply]
    exact ih (hstep s hs)

theorem Runs.step {P : σ → Prop} (hs : P s) (h : f s = u) (hu : Runs f P u t) : Runs f P s t :=
  .head hs (h ▸ hu)

theorem Runs.trans {P : σ → Prop} (h : Runs f P s t) (ht : Runs f P t u) : Runs f P s u := by
  induction h with
  | refl _ => exact ht
  | head hs _ ih => exact .head hs (ih ht)

theorem Runs.leads {P : σ → Prop} (h : Runs f P s t) : Leads f s t := by
  induction h with
  | refl _ => exact .refl f _
  | head _ _ ih => exact .head rfl ih

/-- A run into a state that stays gives the property for ever. -/
theorem Runs.always {P : σ → Prop} (h : Runs f P s t) (hstay : f t = t) (n : Nat) :
    P (f^[n] s) := by
  induction h generalizing n with
  | refl hs =>
    rw [Function.iterate_fixed hstay]
    exact hs
  | head hs _ ih =>
    cases n with
    | zero => exact hs
    | succ n =>
      rw [Function.iterate_succ_apply]
      exact ih hstay n

end Machine
