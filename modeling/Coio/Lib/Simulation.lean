import Coio.Lib.Transition

namespace Transition
set_option autoImplicit true

/-- What the actions of a run mean to an observer, who does not see those without a label. -/
def System.labels (M : System σ α) (label : σ → α → Option β) (s : σ) : List α → List β
  | [] => []
  | a :: as => (label s a).toList ++ ((M.step s a).map fun t => M.labels label t as).getD []

/-- A forward simulation: a step of `M` with a label is that step of `N`, and a step without one
changes nothing there. -/
structure System.Simulation (M : System σ α) (N : System τ β) (label : σ → α → Option β)
    (R : σ → τ → Prop) : Prop where
  init : R M.init N.init
  step : ∀ s u a t, M.Reachable s → R s u → M.step s a = some t →
    ∃ w, N.exec u (label s a).toList = some w ∧ R t w

variable {M : System σ α} {N : System τ β} {label : σ → α → Option β} {R : σ → τ → Prop}

theorem System.Simulation.exec (h : M.Simulation N label R) (hs : M.Reachable s) (hr : R s u)
    (he : M.exec s as = some t) : ∃ w, N.exec u (M.labels label s as) = some w ∧ R t w := by
  induction as generalizing s u with
  | nil =>
    cases he
    exact ⟨u, rfl, hr⟩
  | cons a as ih =>
    obtain ⟨r, hstep, he⟩ := Option.bind_eq_some_iff.1 he
    obtain ⟨v, hv, hrv⟩ := h.step s u a r hs hr hstep
    obtain ⟨w, hw, htw⟩ := ih (hs.step hstep) hrv he
    refine ⟨w, ?_, htw⟩
    rw [System.labels, hstep, System.exec_append, hv]
    exact hw

/-- Every run of `M` is a run of `N`. -/
theorem System.Simulation.run (h : M.Simulation N label R) (he : M.exec M.init as = some t) :
    ∃ w, N.exec N.init (M.labels label M.init as) = some w ∧ R t w :=
  h.exec .init h.init he

/-- A state that is reached is related to one that is reached. -/
theorem System.Simulation.reachable (h : M.Simulation N label R) (hs : M.Reachable s) :
    ∃ u, N.Reachable u ∧ R s u := by
  induction hs with
  | init => exact ⟨_, .init, h.init⟩
  | step hs hstep ih =>
    obtain ⟨u, hu, hr⟩ := ih
    obtain ⟨w, hw, htw⟩ := h.step _ _ _ _ hs hr hstep
    exact ⟨w, hu.exec _ hw, htw⟩

inductive LockAct (κ : Type u)
  | acquire (k : κ)
  | release (k : κ)
  deriving DecidableEq, Repr

/-- A lock, the purpose of a mutex: its state is the owner. -/
def lock (κ : Type u) [DecidableEq κ] : System (Option κ) (LockAct κ) where
  init := none
  step s
    | .acquire k => if s = none then some (some k) else none
    | .release k => if s = some k then some none else none

/-- Who has a lock that its owner passes on. -/
inductive Tenure (κ : Type u)
  | free
  | owned (k : κ)
  | passing
  deriving DecidableEq, Repr

theorem Tenure.eq_of_iff {x y : Tenure κ} (hfree : x = .free ↔ y = .free)
    (howned : ∀ k, x = .owned k ↔ y = .owned k) : x = y := by
  cases x with
  | free => exact (hfree.1 rfl).symm
  | owned k => exact ((howned k).1 rfl).symm
  | passing =>
    cases y with
    | free => cases hfree.2 rfl
    | owned k => cases (howned k).2 rfl
    | passing => rfl

structure FairLock (κ : Type u) where
  tenure : Tenure κ := .free
  waiting : List κ := []
  deriving DecidableEq, Repr

inductive FairAct (κ : Type u)
  | acquire (k : κ)
  | enqueue (k : κ)
  | release (k : κ)
  | pass (k : κ)
  | abandon
  deriving DecidableEq, Repr

/-- A lock that is first come, first served: who comes while it is taken waits in line, and it gets
free only when nobody waits. -/
def fairLock (κ : Type u) [DecidableEq κ] : System (FairLock κ) (FairAct κ) where
  init := {}
  step u
    | .acquire k => if u.tenure = .free then some { u with tenure := .owned k } else none
    | .enqueue k => if u.tenure ≠ .free then some { u with waiting := u.waiting ++ [k] } else none
    | .release k => if u.tenure = .owned k then some { u with tenure := .passing } else none
    | .pass k => if u.tenure = .passing ∧ u.waiting.head? = some k then
        some ⟨.owned k, u.waiting.tail⟩
      else none
    | .abandon => if u.tenure = .passing ∧ u.waiting = [] then some {} else none

end Transition
