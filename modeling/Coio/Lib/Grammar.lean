import Mathlib.Data.List.Basic

namespace Grammar
set_option autoImplicit true

/-- A text that `G` gives a meaning, with white space on both sides. -/
inductive Padded (space : σ → Bool) (G : List σ → α → Prop) : List σ → α → Prop
  | mk (hw : ∀ c ∈ w, space c) (ht : G t a) (hw' : ∀ c ∈ w', space c) :
      Padded space G (w ++ t ++ w') a

/-- A sequence of texts with `sep` between them. -/
inductive Separated (sep : σ) (G : List σ → α → Prop) : List σ → List α → Prop
  | single (ht : G t a) : Separated sep G t [a]
  | cons (ht : G t a) (hts : Separated sep G ts as) : Separated sep G (t ++ sep :: ts) (a :: as)

variable {space : σ → Bool} {G : List σ → α → Prop}

theorem Padded.of (ht : G t a) : Padded space G t a := by
  have h : Padded space G ([] ++ t ++ []) a := .mk nofun ht nofun
  rwa [List.nil_append, List.append_nil] at h

theorem Padded.left (hw : ∀ c ∈ w, space c) (h : Padded space G t a) :
    Padded space G (w ++ t) a := by
  obtain ⟨hv, ht, hw'⟩ := h
  rw [← List.append_assoc, ← List.append_assoc]
  exact .mk (fun c hc => (List.mem_append.1 hc).elim (hw c) (hv c)) ht hw'

theorem Padded.right (hw : ∀ c ∈ w, space c) (h : Padded space G t a) :
    Padded space G (t ++ w) a := by
  obtain ⟨hv, ht, hw'⟩ := h
  rw [List.append_assoc]
  exact .mk hv ht fun c hc => (List.mem_append.1 hc).elim (hw' c) (hw c)

/-- White space on the left of the first text. -/
theorem Separated.left (h : Separated sep G t as)
    (hw : ∀ t a, G t a → G (w ++ t) a) : Separated sep G (w ++ t) as := by
  cases h with
  | single ht => exact .single (hw _ _ ht)
  | cons ht hts =>
    rw [← List.append_assoc]
    exact .cons (hw _ _ ht) hts

/-- Without the white space on the left a sequence starts as its first text does. -/
theorem Separated.trim {Q : σ → Prop} (h : Separated sep G t as)
    (htrim : ∀ t a, G t a →
      ∃ w ch r, t = w ++ ch :: r ∧ (∀ c ∈ w, space c) ∧ Q ch ∧ G (ch :: r) a) :
    ∃ w ch r, t = w ++ ch :: r ∧ (∀ c ∈ w, space c) ∧ Q ch ∧ Separated sep G (ch :: r) as := by
  cases h with
  | single ht =>
    obtain ⟨w, ch, r, rfl, hw, hch, ht'⟩ := htrim _ _ ht
    exact ⟨w, ch, r, rfl, hw, hch, .single ht'⟩
  | @cons t a ts as ht hts =>
    obtain ⟨w, ch, r, rfl, hw, hch, ht'⟩ := htrim _ _ ht
    exact ⟨w, ch, r ++ sep :: ts, List.append_assoc .., hw, hch, .cons ht' hts⟩

theorem Separated.forall (h : Separated sep G t as) {Q : α → Prop}
    (hq : ∀ t' a, t'.length ≤ t.length → G t' a → Q a) : ∀ a ∈ as, Q a := by
  induction h with
  | single ht =>
    intro a ha
    rw [List.mem_singleton.1 ha]
    exact hq _ _ (Nat.le_refl _) ht
  | @cons t a ts as ht hts ih =>
    intro b hb
    rcases List.mem_cons.1 hb with rfl | hb
    · exact hq t b (by rw [List.length_append]; exact Nat.le_add_right ..) ht
    · refine ih (fun t' a hlen => hq t' a ?_) b hb
      rw [List.length_append, List.length_cons]
      omega

/-- Texts that are not empty are at most as many as their characters. -/
theorem Separated.length_le (h : Separated sep G t as) (hne : ∀ a, ¬ G [] a) :
    as.length ≤ t.length := by
  induction h with
  | @single t a ht =>
    cases t with
    | nil => exact absurd ht (hne a)
    | cons => exact Nat.succ_le_succ (Nat.zero_le _)
  | @cons t a ts as ht hts ih =>
    rw [List.length_append, List.length_cons, List.length_cons]
    omega

end Grammar
