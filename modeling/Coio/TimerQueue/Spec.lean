import Coio.TimerQueue.Unlink

namespace Coio.TimerQueue
open PairingHeap
set_option autoImplicit true

theorem clearLinks_eq [DecidableEq Op] {q : TimerQueue Op δ} (h : q.links x = {}) :
    q.clearLinks x = q := by
  unfold clearLinks
  rw [← h, Function.update_eq_self]

variable [LinearOrder δ]

/-- The links spell out a heap, and the nodes outside of it are not linked. -/
structure Spells (q : TimerQueue Op δ) (t : Option (PairingHeap.Tree Op)) : Prop where
  root : q.root = t.map PairingHeap.Tree.root
  tree : ∀ r ∈ t, RootAt q.links r
  nodup : (nodesOf t).Nodup
  ordered : ∀ r ∈ t, r.Ordered q.deadline
  unlinked : ∀ x ∉ nodesOf t, q.links x = {}

theorem Spells.withRoot {q q' : TimerQueue Op δ} {t' : PairingHeap.Tree Op}
    (hk : q'.deadline = q.deadline) (ht : RootAt q'.links t') (ho : t'.Ordered q.deadline)
    (hn : t'.nodes.Nodup) (hu : ∀ x ∉ t'.nodes, q'.links x = {}) :
    Spells { q' with root := some t'.root } (some t') where
  root := rfl
  tree r hr := Option.mem_some_iff.1 hr ▸ ht
  nodup := hn
  ordered r hr := by
    rw [← Option.mem_some_iff.1 hr, hk]
    exact ho
  unlinked := hu

theorem earliest_spec {q : TimerQueue Op δ} (h : Spells q t) :
    q.earliest = some d ↔
      (∃ x ∈ nodesOf t, q.deadline x = d) ∧ ∀ x ∈ nodesOf t, d ≤ q.deadline x := by
  have hroot := h.root
  cases t with
  | none => simp [earliest, hroot]
  | some r =>
    have ho := h.ordered r rfl
    simp only [earliest, hroot, Option.map_some, Option.some.injEq]
    constructor
    · rintro rfl
      exact ⟨⟨r.root, List.mem_cons_self, rfl⟩, fun x hx => ho.root_le hx⟩
    · rintro ⟨⟨x, hx, rfl⟩, hmin⟩
      exact le_antisymm (ho.root_le hx) (hmin _ List.mem_cons_self)

variable [DecidableEq Op] {q : TimerQueue Op δ}

/-- A node that has just left the heap is cleared. -/
theorem Spells.cleared {q' : TimerQueue Op δ} (hk : q'.deadline = q.deadline)
    (hr : q'.root = t'.map PairingHeap.Tree.root) (ht : ∀ r ∈ t', RootAt q'.links r)
    (ho : ∀ r ∈ t', r.Ordered q.deadline) (hn : (x :: nodesOf t').Nodup)
    (hu : ∀ y ∉ x :: nodesOf t', q'.links y = {}) : Spells (q'.clearLinks x) t' := by
  obtain ⟨hx, hn⟩ := List.nodup_cons.1 hn
  have hsame : SameOff [x] q' (q'.clearLinks x) :=
    ⟨rfl, rfl, fun y hy => Function.update_of_ne (fun h : y = x => hy (by simp [h])) ..⟩
  refine ⟨hr, fun r hr => (ht r hr).off hsame fun y hy h => hx ?_, hn, fun r hr => ?_,
    fun y hy => ?_⟩
  · rw [← List.mem_singleton.1 h, Option.mem_def.1 hr]
    exact hy
  · rw [hsame.deadline, hk]
    exact ho r hr
  · rw [clearLinks_links]
    split
    · rfl
    · rename_i hyx
      exact hu y (by simp [hyx, hy])

theorem add_spec (h : Spells q t) (hx : x ∉ nodesOf t) :
    ∃ t', Spells (q.add x).1 t' ∧ (nodesOf t').Perm (x :: nodesOf t) ∧
      (q.add x).1.deadline = q.deadline ∧
      ((q.add x).2 = true ↔ ∀ y ∈ nodesOf t, q.deadline x < q.deadline y) := by
  have hx' := h.unlinked x hx
  have hxt : RootAt q.links ⟨x, .nil⟩ := by
    refine ⟨⟨?_, ?_⟩, ?_⟩ <;> simp [hx', Layout]
  cases t with
  | none =>
    have hroot : q.root = none := h.root
    have hadd : q.add x = ({ q with root := some x }, true) := by
      simp only [add, clearLinks_eq hx', hroot, decide_true]
    rw [hadd]
    refine ⟨some ⟨x, .nil⟩,
      .withRoot rfl hxt ⟨nofun, trivial⟩ (by simp [PairingHeap.Tree.nodes]) ?_, .refl _,
      rfl, by simp⟩
    exact fun y _ => h.unlinked y List.not_mem_nil
  | some r =>
    have hroot : q.root = some r.root := h.root
    have ho := h.ordered r rfl
    have hn : (r.nodes ++ [x]).Nodup := (List.perm_append_singleton x _).nodup_iff.2
      (List.nodup_cons.2 ⟨hx, h.nodup⟩)
    have hpm := PairingHeap.Tree.nodes_meld q.deadline r ⟨x, .nil⟩
    obtain ⟨q', hq', ht', hsame⟩ := meld_layout rfl (h.tree r rfl) hxt hn
    have hadd : q.add x =
        ({ q' with root := some (PairingHeap.Tree.meld q.deadline r ⟨x, .nil⟩).root },
        decide ((PairingHeap.Tree.meld q.deadline r ⟨x, .nil⟩).root = x)) := by
      simp only [add, clearLinks_eq hx', hroot, hq']
    rw [hadd]
    refine ⟨some (PairingHeap.Tree.meld q.deadline r ⟨x, .nil⟩),
      .withRoot hsame.deadline ht' (ho.meld ⟨nofun, trivial⟩) (hpm.nodup_iff.2 hn) ?_, ?_,
      hsame.deadline, ?_⟩
    · intro y hy
      have hy' : y ∉ r.nodes ++ [x] := fun hm => hy (hpm.symm.subset hm)
      rw [hsame.links y hy', h.unlinked y fun hm => hy' (List.mem_append_left _ hm)]
    · exact hpm.trans (List.perm_append_singleton x _)
    · rw [decide_eq_true_iff, PairingHeap.Tree.meld]
      split
      · rename_i hlt
        exact ⟨fun _ y hy => lt_of_lt_of_le hlt (ho.root_le hy), fun _ => rfl⟩
      · rename_i hlt
        refine ⟨fun he => absurd ?_ hx, fun hall => absurd (hall _ List.mem_cons_self) hlt⟩
        exact he ▸ List.mem_cons_self

theorem popRoot_spec {r : PairingHeap.Tree Op} (h : Spells q (some r))
    (hfuel : r.children.nodes.length ≤ fuel) :
    ∃ q', q.popRoot fuel = some (q', r.root) ∧ Spells q' (mergePairs q.deadline r.children) ∧
      q'.deadline = q.deadline := by
  have hroot : q.root = some r.root := h.root
  obtain ⟨hr, hn⟩ := List.nodup_cons.1 h.nodup
  obtain ⟨q', hq', ht', hsame⟩ := mergeChildren_layout rfl (h.tree r rfl).1.2 hn hfuel
  have hpm := nodes_mergePairs q.deadline r.children
  have hpop : q.popRoot fuel = some
      ({ q' with
        root := (mergePairs q.deadline r.children).map PairingHeap.Tree.root }.clearLinks r.root,
        r.root) := by
    simp only [popRoot, hroot, Option.bind_some, hq', Option.map_some]
  have hn' := (hpm.cons r.root).nodup_iff.2 h.nodup
  refine ⟨_, hpop, .cleared hsame.deadline rfl ht' (fun t ht => ?_) hn' fun y hy => ?_,
    hsame.deadline⟩
  · exact ordered_mergePairs (h.ordered r rfl).2 ht
  · have hy' : y ∉ nodesOf (some r) := fun hm => hy ((hpm.cons r.root).symm.subset hm)
    refine Eq.trans (hsame.links y fun hm => hy' (List.mem_cons_of_mem _ hm)) ?_
    exact h.unlinked y hy'

theorem remove_of_notMem (h : Spells q t) (hx : x ∉ nodesOf t) :
    q.remove fuel x = some (q, false) := by
  have hroot : q.root ≠ some x := by
    rw [h.root]
    rintro he
    obtain ⟨r, rfl, rfl⟩ := Option.map_eq_some_iff.1 he
    exact hx List.mem_cons_self
  rw [remove, if_neg hroot, if_pos (by rw [h.unlinked x hx])]

theorem remove_inner {r : PairingHeap.Tree Op} (h : Spells q (some r)) (hx : x ∈ r.children.nodes)
    (hfuel : r.nodes.length ≤ fuel) :
    ∃ q', q.remove fuel x = some (q', true) ∧ Spells q' (some (r.erase q.deadline x)) ∧
      q'.deadline = q.deadline := by
  have hroot : q.root = some r.root := h.root
  have hn : r.nodes.Nodup := h.nodup
  have hrx : q.root ≠ some x := fun he =>
    (List.nodup_cons.1 hn).1 (Option.some.inj (hroot.symm.trans he) ▸ hx)
  have hu := Forest.nodes_unlink (List.nodup_cons.1 hn).2 hx
  obtain ⟨hrn, hnc⟩ := List.nodup_cons.1 hn
  obtain ⟨hnch, hnu, hd⟩ := List.nodup_append.1 (List.nodup_cons.1 (hu.nodup_iff.2 hnc)).2
  have hchild : ∀ y ∈ (r.children.childrenOf x).nodes, y ∈ r.children.nodes := fun y hy =>
    hu.subset (List.mem_cons_of_mem _ (List.mem_append_left _ hy))
  have hrest : ∀ y ∈ r.root :: (r.children.unlink x).nodes,
      y ∉ (r.children.childrenOf x).nodes := by
    intro y hy hy'
    rcases List.mem_cons.1 hy with rfl | hy
    · exact hrn (hchild _ hy')
    · exact hd y hy' y hy rfl
  have hlen : (r.children.childrenOf x).nodes.length ≤ fuel := by
    have := hu.length_eq
    simp only [List.length_cons, List.length_append, PairingHeap.Tree.nodes] at this hfuel
    omega
  obtain ⟨q₁, hq₁, hprev, ht₁, hl₁, hsame₁⟩ := unlink_layout (h.tree r rfl) hn hx
  obtain ⟨q₂, hq₂, hs₂, hsame₂⟩ := mergeChildren_layout hsame₁.deadline hl₁ hnch hlen
  have ht₂ := ht₁.off hsame₂ hrest
  have hsame := hsame₁.trans (hsame₂.mono fun y hy => List.mem_cons_of_mem _ (hchild y hy))
  have herase := PairingHeap.Tree.nodes_erase q.deadline hn hx
  have hdone : ∀ q' : TimerQueue Op δ, q'.deadline = q.deadline →
      q'.root = some (r.erase q.deadline x).root → RootAt q'.links (r.erase q.deadline x) →
      (∀ y ∉ r.nodes, q'.links y = q.links y) →
      Spells (q'.clearLinks x) (some (r.erase q.deadline x)) := by
    intro q' hk hr ht hl
    refine .cleared hk hr (fun t hm => Option.mem_some_iff.1 hm ▸ ht)
      (fun t hm => Option.mem_some_iff.1 hm ▸ (h.ordered r rfl).erase) (herase.nodup_iff.2 hn)
      fun y hy => ?_
    have hy' : y ∉ r.nodes := fun hm => hy (herase.symm.subset hm)
    rw [hl y hy', h.unlinked y hy']
  cases hm : mergePairs q.deadline (r.children.childrenOf x) with
  | none =>
    have he : r.erase q.deadline x = ⟨r.root, r.children.unlink x⟩ := by
      rw [PairingHeap.Tree.erase, hm]
    have hrem : q.remove fuel x = some (q₂.clearLinks x, true) := by
      simp only [remove, if_neg hrx, if_neg hprev, hq₁, Option.bind_some, hq₂, hm, Option.map_none]
    refine ⟨_, hrem, hdone q₂ hsame.deadline ?_ ?_ hsame.links, hsame.deadline⟩
    · rw [he, hsame.root, hroot]
    · rw [he]
      exact ht₂
  | some u =>
    have he : r.erase q.deadline x =
        PairingHeap.Tree.meld q.deadline ⟨r.root, r.children.unlink x⟩ u := by
      rw [PairingHeap.Tree.erase, hm]
    have hpm := nodes_mergePairs q.deadline (r.children.childrenOf x)
    rw [hm] at hpm
    have hn₃ : (r.root :: (r.children.unlink x).nodes ++ u.nodes).Nodup := by
      refine List.nodup_append.2 ⟨List.nodup_cons.2 ⟨fun h => hrn (Forest.unlink_subset h), hnu⟩,
        hpm.nodup_iff.2 hnch, fun y hy z hz hyz => ?_⟩
      exact hrest y hy (hpm.subset (hyz ▸ hz))
    obtain ⟨q₃, hq₃, ht₃, hsame₃⟩ := meld_layout hsame.deadline ht₂ (hs₂ u hm) hn₃
    rw [← he] at hq₃ ht₃
    have hrem : q.remove fuel x =
        some ({ q₃ with root := some (r.erase q.deadline x).root }.clearLinks x, true) := by
      rw [remove, if_neg hrx, if_neg hprev, hq₁, Option.bind_some, hq₂, hm, Option.bind_some]
      simp only [Option.map_some, hsame.root, hroot, hq₃]
    have hk := hsame₃.deadline.trans hsame.deadline
    refine ⟨_, hrem, hdone _ hk rfl ht₃ fun y hy => ?_, hk⟩
    refine Eq.trans (hsame₃.links y fun hm' => hy ?_) (hsame.links y hy)
    rcases List.mem_append.1 hm' with hm' | hm'
    · rcases List.mem_cons.1 hm' with rfl | hm'
      · exact List.mem_cons_self
      · exact List.mem_cons_of_mem _ (Forest.unlink_subset hm')
    · exact List.mem_cons_of_mem _ (hchild y (hpm.subset hm'))

theorem remove_spec (h : Spells q t) (hx : x ∈ nodesOf t) (hfuel : (nodesOf t).length ≤ fuel) :
    ∃ q' t', q.remove fuel x = some (q', true) ∧ Spells q' t' ∧
      (x :: nodesOf t').Perm (nodesOf t) ∧ q'.deadline = q.deadline := by
  cases t with
  | none => cases hx
  | some r =>
    have hroot : q.root = some r.root := h.root
    rcases List.mem_cons.1 hx with rfl | hx
    · obtain ⟨q', hq', hs, hk⟩ := popRoot_spec h (Nat.le_of_succ_le hfuel)
      refine ⟨q', _, ?_, hs, (nodes_mergePairs _ _).cons _, hk⟩
      rw [remove, if_pos hroot, hq', Option.map_some]
    · obtain ⟨q', hq', hs, hk⟩ := remove_inner h hx hfuel
      exact ⟨q', _, hq', hs, PairingHeap.Tree.nodes_erase _ h.nodup hx, hk⟩

theorem takeReadyTimers_spec (h : Spells q t) (hfuel : (nodesOf t).length ≤ fuel)
    (hn : (nodesOf t).length ≤ n) :
    ∃ q' t' ready, takeReadyTimers fuel now n q list = some (q', list ++ ready) ∧ Spells q' t' ∧
      q'.deadline = q.deadline ∧ (ready ++ nodesOf t').Perm (nodesOf t) ∧
      (∀ x ∈ ready, q.deadline x ≤ now) ∧ (∀ x ∈ nodesOf t', now < q.deadline x) ∧
      ready.Pairwise fun x y => q.deadline x ≤ q.deadline y := by
  induction n generalizing q t list with
  | zero =>
    have hroot := h.root
    cases t with
    | none =>
      refine ⟨q, none, [], ?_, h, rfl, .refl _, nofun, nofun, .nil⟩
      simp [takeReadyTimers, hroot]
    | some r => cases hn
  | succ n ih =>
    have hroot := h.root
    cases t with
    | none =>
      refine ⟨q, none, [], ?_, h, rfl, .refl _, nofun, nofun, .nil⟩
      simp [takeReadyTimers, hroot]
    | some r =>
      have ho := h.ordered r rfl
      by_cases hnow : now < q.deadline r.root
      · refine ⟨q, some r, [], ?_, h, rfl, .refl _, nofun, fun x hx => ?_, .nil⟩
        · simp [takeReadyTimers, hroot, hnow]
        · exact lt_of_lt_of_le hnow (ho.root_le hx)
      · have hpm := nodes_mergePairs q.deadline r.children
        have hlen := hpm.length_eq
        obtain ⟨q₁, hq₁, h₁, hk⟩ := popRoot_spec h (Nat.le_of_succ_le hfuel)
        obtain ⟨q', t', ready, hq', h', hk', hp, hle, hlt, hsorted⟩ :=
          @ih _ _ (list ++ [r.root]) h₁ (hlen ▸ Nat.le_of_succ_le hfuel)
            (hlen ▸ Nat.le_of_succ_le_succ hn)
        rw [hk] at hk' hle hlt hsorted
        have hready : ∀ x ∈ ready, x ∈ r.children.nodes := fun x hx =>
          hpm.subset (hp.subset (List.mem_append_left _ hx))
        refine ⟨q', t', r.root :: ready, ?_, h', hk', (hp.trans hpm).cons _, fun x hx => ?_, hlt,
          List.pairwise_cons.2 ⟨fun x hx => ho.1 x (hready x hx), hsorted⟩⟩
        · simp only [takeReadyTimers, hroot, Option.map_some, if_neg hnow, hq₁, Option.bind_some,
            hq', List.append_assoc, List.singleton_append]
        · rcases List.mem_cons.1 hx with rfl | hx
          · exact le_of_not_gt hnow
          · exact hle x hx

end Coio.TimerQueue
