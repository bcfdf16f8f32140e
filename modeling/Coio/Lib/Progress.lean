import Coio.Lib.Transition

namespace Transition
set_option autoImplicit true

/-- From the state there is a run of actions in `A` to a state in `P`. -/
def System.Leads (M : System σ α) (A : α → Prop) (P : σ → Prop) (s : σ) : Prop :=
  ∃ as t, (∀ a ∈ as, A a) ∧ M.exec s as = some t ∧ P t

variable {M : System σ α} {A : α → Prop} {P Q : σ → Prop}

theorem System.Leads.here (h : P s) : M.Leads A P s := ⟨[], s, nofun, rfl, h⟩

theorem System.Leads.cons (hs : M.step s a = some t) (ha : A a) (h : M.Leads A P t) :
    M.Leads A P s := by
  obtain ⟨as, u, has, hu, hp⟩ := h
  exact ⟨a :: as, u, List.forall_mem_cons.2 ⟨ha, has⟩, Option.bind_eq_some_iff.2 ⟨t, hs, hu⟩, hp⟩

theorem System.Leads.trans (h : M.Leads A P s) (hpq : ∀ t, P t → M.Leads A Q t) :
    M.Leads A Q s := by
  obtain ⟨as, t, has, ht, hp⟩ := h
  obtain ⟨bs, u, hbs, hu, hq⟩ := hpq t hp
  refine ⟨as ++ bs, u, fun a ha => (List.mem_append.1 ha).elim (has a) (hbs a), ?_, hq⟩
  rw [System.exec_append, ht]
  exact hu

end Transition
