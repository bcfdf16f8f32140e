import Mathlib.Algebra.Order.BigOperators.Group.Finset
import Mathlib.Data.Set.Card

namespace Tally
set_option autoImplicit true

/-- All but finitely many terms vanish and the others add up to `n`. -/
def Total (f : κ → Nat) (n : Nat) : Prop :=
  ∃ F : Finset κ, (∀ k, k ∉ F → f k = 0) ∧ ∑ k ∈ F, f k = n

theorem Total.zero : Total (fun _ : κ => 0) 0 := ⟨∅, by simp, rfl⟩

theorem Total.le {f : κ → Nat} (h : Total f n) (k : κ) : f k ≤ n := by
  obtain ⟨F, hF, rfl⟩ := h
  by_cases hk : k ∈ F
  · exact Finset.single_le_sum (fun _ _ => Nat.zero_le _) hk
  · rw [hF k hk]
    exact Nat.zero_le _

theorem Total.congr {f g : κ → Nat} (h : Total f n) (hf : ∀ k, g k = f k) : Total g n := by
  obtain rfl : g = f := funext hf
  exact h

/-- Changing one term changes the total by the difference. -/
theorem Total.update [DecidableEq κ] {p : κ → α} {f : α → Nat} {k : κ} {v : α}
    (h : Total (fun j => f (p j)) n) (hn : n + f v = m + f (p k)) :
    Total (fun j => f (Function.update p k v j)) m := by
  obtain ⟨F, hF, hsum⟩ := h
  dsimp only at hF hsum
  refine ⟨insert k F, fun j hj => ?_, ?_⟩
  · dsimp only
    rw [Finset.mem_insert, not_or] at hj
    rw [Function.update_of_ne hj.1]
    exact hF j hj.2
  · have hrest : ∑ j ∈ F.erase k, f (Function.update p k v j) = ∑ j ∈ F.erase k, f (p j) :=
      Finset.sum_congr rfl fun j hj => by rw [Function.update_of_ne (Finset.ne_of_mem_erase hj)]
    have hold : f (p k) + ∑ j ∈ F.erase k, f (p j) = n := by
      by_cases hk : k ∈ F
      · rw [Finset.add_sum_erase F (fun j => f (p j)) hk, hsum]
      · rw [hF k hk, Finset.erase_eq_of_notMem hk, hsum, Nat.zero_add]
    rw [← Finset.insert_erase (Finset.mem_insert_self k F), Finset.erase_insert_eq_erase,
      Finset.sum_insert (Finset.notMem_erase k F), Function.update_self, hrest]
    omega

/-- The total stays the same when two terms change places. -/
theorem Total.swap [DecidableEq κ] {p : κ → α} {f : α → Nat} {a b : κ}
    (h : Total (fun j => f (p j)) n) :
    Total (fun j => f (Function.update (Function.update p a (p b)) b (p a) j)) n := by
  have hle : f (p a) ≤ n := h.le a
  have hfirst : Total (fun j => f (Function.update p a (p b) j)) (n + f (p b) - f (p a)) :=
    h.update (by omega)
  apply hfirst.update
  by_cases hab : b = a
  · rw [hab, Function.update_self]
    omega
  · rw [Function.update_of_ne hab]
    omega

/-- The total of an indicator is how many have the property. -/
theorem Total.encard {P : κ → Prop} [DecidablePred P]
    (h : Total (fun j => if P j then 1 else 0) n) : {j | P j}.encard = n := by
  obtain ⟨F, hF, rfl⟩ := h
  have hP : {j | P j} = (F.filter P : Set κ) := by
    ext j
    rw [Finset.coe_filter]
    refine ⟨fun (hj : P j) => ⟨?_, hj⟩, And.right⟩
    by_contra hn
    have hz : (if P j then 1 else 0) = 0 := hF j hn
    rw [if_pos hj] at hz
    exact Nat.one_ne_zero hz
  rw [hP, Set.encard_coe_eq_coe_finsetCard, Finset.card_filter]

/-- Two totals of the same terms agree. -/
theorem Total.unique (h : Total f n) (h' : Total f m) : n = m := by
  classical
  obtain ⟨F, hF, rfl⟩ := h
  obtain ⟨G, hG, rfl⟩ := h'
  have hl : ∑ k ∈ F, f k = ∑ k ∈ F ∪ G, f k :=
    Finset.sum_subset Finset.subset_union_left fun k _ hk => hF k hk
  have hr : ∑ k ∈ G, f k = ∑ k ∈ F ∪ G, f k :=
    Finset.sum_subset Finset.subset_union_right fun k _ hk => hG k hk
  exact hl.trans hr.symm

end Tally
