import Coio.TimerQueue.Layout

namespace Coio.TimerQueue
open PairingHeap
set_option autoImplicit true

variable [DecidableEq Op] {q : TimerQueue Op δ}

/-- Cutting a node off its list leaves the tree below it. -/
theorem detach_layout {x : Op} (hn : x ∉ c.nodes)
    (hc : Layout q.links c (some x) (q.links x).child) :
    RootAt ((q.setPrev x none).setSibling x none).links ⟨x, c⟩ ∧
      SameOff [x] q ((q.setPrev x none).setSibling x none) := by
  have hs : SameOff [x] q ((q.setPrev x none).setSibling x none) :=
    (SameOff.setPrev (by simp) none).trans (SameOff.setSibling (by simp) none)
  have hx : ∀ y ∈ c.nodes, y ∉ [x] := by
    intro y hy h
    rw [List.mem_singleton] at h
    exact hn (h ▸ hy)
  refine ⟨⟨⟨by simp, ?_⟩, by simp⟩, hs⟩
  have hl := hc.off hs hx
  simpa using hl

theorem stack_layout {t : PairingHeap.Tree Op} (ht : TreeAt q.links t) (hts : Stacked q.links ts o)
    (hn : (t.nodes ++ ts.flatMap PairingHeap.Tree.nodes).Nodup) :
    Stacked (q.setSibling t.root o).links (t :: ts) (some t.root) ∧
      SameOff [t.root] q (q.setSibling t.root o) := by
  obtain ⟨hnt, -, hd⟩ := List.nodup_append.1 hn
  have hs : SameOff [t.root] q (q.setSibling t.root o) := SameOff.setSibling (by simp) o
  refine ⟨⟨rfl, ?_, ?_⟩, hs⟩
  · refine ht.frame (by simp) (by simp) fun x hx => hs.links x ?_
    rw [List.mem_singleton]
    rintro rfl
    exact (List.nodup_cons.1 hnt).1 hx
  · simp only [setSibling_links, if_true]
    refine hts.off hs fun x hx => ?_
    rw [List.mem_singleton]
    rintro rfl
    exact hd _ List.mem_cons_self _ hx rfl

theorem unstack_layout {t : PairingHeap.Tree Op} (h : Stacked q.links (t :: ts) o)
    (hn : (t.nodes ++ ts.flatMap PairingHeap.Tree.nodes).Nodup) :
    RootAt (q.setSibling t.root none).links t ∧
      Stacked (q.setSibling t.root none).links ts (q.links t.root).sibling ∧
      SameOff [t.root] q (q.setSibling t.root none) := by
  obtain ⟨-, ht, hts⟩ := h
  obtain ⟨hnt, -, hd⟩ := List.nodup_append.1 hn
  have hs : SameOff [t.root] q (q.setSibling t.root none) := SameOff.setSibling (by simp) none
  refine ⟨⟨?_, by simp⟩, ?_, hs⟩
  · refine ht.frame (by simp) (by simp) fun x hx => hs.links x ?_
    rw [List.mem_singleton]
    rintro rfl
    exact (List.nodup_cons.1 hnt).1 hx
  · refine hts.off hs fun x hx => ?_
    rw [List.mem_singleton]
    rintro rfl
    exact hd _ List.mem_cons_self _ hx rfl

variable [LinearOrder δ]

/-- The body of the first loop: two neighbours are cut off and melded. -/
theorem meldPair_layout {a b : Op} (hk : q.deadline = key)
    (ha : Layout q.links ca (some a) (q.links a).child)
    (hb : Layout q.links cb (some b) (q.links b).child)
    (hn : (a :: ca.nodes ++ b :: cb.nodes).Nodup) :
    ∃ q', ((((q.setPrev a none).setSibling a none).setPrev b none).setSibling b none).meld a b =
        (q', (PairingHeap.Tree.meld key ⟨a, ca⟩ ⟨b, cb⟩).root) ∧
      RootAt q'.links (PairingHeap.Tree.meld key ⟨a, ca⟩ ⟨b, cb⟩) ∧
      SameOff (a :: ca.nodes ++ b :: cb.nodes) q q' := by
  obtain ⟨hna, hnb, hd⟩ := List.nodup_append.1 hn
  have hba : b ≠ a := (hd a List.mem_cons_self b List.mem_cons_self).symm
  obtain ⟨hta, hsa⟩ := detach_layout (List.nodup_cons.1 hna).1 ha
  have hb' := hb.off hsa fun x hx h =>
    hd a List.mem_cons_self x (List.mem_cons_of_mem _ hx) (List.mem_singleton.1 h).symm
  rw [← hsa.links b (by simpa using hba)] at hb'
  obtain ⟨htb, hsb⟩ := detach_layout (List.nodup_cons.1 hnb).1 hb'
  have hta' := hta.off hsb fun x hx h => hd x hx b List.mem_cons_self (List.mem_singleton.1 h)
  have hk' := (hsb.deadline.trans hsa.deadline).trans hk
  obtain ⟨q', hw, htw, hsw⟩ := meld_layout hk' hta' htb hn
  have hal : ∀ x ∈ [a], x ∈ a :: ca.nodes ++ b :: cb.nodes := by simp
  have hbl : ∀ x ∈ [b], x ∈ a :: ca.nodes ++ b :: cb.nodes := by simp
  exact ⟨q', hw, htw, ((hsa.mono hal).trans (hsb.mono hbl)).trans hsw⟩

theorem pairUp_layout {f : Forest Op} {ts : List (PairingHeap.Tree Op)} (hk : q.deadline = key)
    (hf : Layout q.links f prev o) (hts : Stacked q.links ts merged)
    (hn : (f.nodes ++ ts.flatMap PairingHeap.Tree.nodes).Nodup) (hfuel : f.nodes.length ≤ fuel) :
    ∃ q' merged', q.pairUp fuel o merged = some (q', merged') ∧
      Stacked q'.links (PairingHeap.pairUp key f ts) merged' ∧
      SameOff (f.nodes ++ ts.flatMap PairingHeap.Tree.nodes) q q' := by
  induction f, ts using PairingHeap.pairUp.induct key
    generalizing q prev o merged fuel with
  | case1 ts =>
    cases hf
    exact ⟨q, merged, by cases fuel <;> rfl, hts, ⟨rfl, rfl, fun x _ => rfl⟩⟩
  | case2 a ca ts =>
    obtain ⟨rfl, -, hca, hs⟩ := hf
    obtain ⟨fuel, rfl⟩ : ∃ n, fuel = n + 1 := Nat.exists_eq_add_one.2 (by simp at hfuel; omega)
    simp only [Forest.nodes_node, Forest.nodes_nil, List.append_nil] at hn ⊢
    obtain ⟨hna, -, hd⟩ := List.nodup_append.1 hn
    obtain ⟨hta, hsa⟩ := detach_layout (List.nodup_cons.1 hna).1 hca
    have hts' := hts.off hsa fun x hx h =>
      hd a List.mem_cons_self x hx (List.mem_singleton.1 h).symm
    obtain ⟨hst, hss⟩ := stack_layout hta.1 hts' hn
    refine ⟨_, _, ?_, hst, ?_⟩
    · rw [pairUp, show (q.links a).sibling = none from hs]
      cases fuel <;> rfl
    · refine (hsa.trans hss).mono fun x hx => ?_
      rw [List.mem_singleton.1 hx]
      exact List.mem_append_left _ List.mem_cons_self
  | case3 a ca b cb s ts ih =>
    obtain ⟨rfl, -, hca, hab, -, hcb, hs⟩ := hf
    obtain ⟨fuel, rfl⟩ : ∃ n, fuel = n + 1 := Nat.exists_eq_add_one.2 (by simp at hfuel; omega)
    simp only [Forest.nodes_node] at hn hfuel ⊢
    have hperm : (a :: (ca.nodes ++ b :: (cb.nodes ++ s.nodes)) ++
        ts.flatMap PairingHeap.Tree.nodes).Perm
        ((a :: ca.nodes ++ b :: cb.nodes) ++ (s.nodes ++ ts.flatMap PairingHeap.Tree.nodes)) := by
      simp
    have hpm : (s.nodes ++ ((PairingHeap.Tree.meld key ⟨a, ca⟩ ⟨b, cb⟩).nodes ++
        ts.flatMap PairingHeap.Tree.nodes)).Perm
        ((a :: ca.nodes ++ b :: cb.nodes) ++ (s.nodes ++ ts.flatMap PairingHeap.Tree.nodes)) :=
      (((PairingHeap.Tree.nodes_meld _ _ _).append_right _).append_left _).trans
        (List.perm_append_comm_assoc ..)
    have hnm := hpm.nodup_iff.2 (hperm.nodup_iff.1 hn)
    obtain ⟨hnab, -, hd⟩ := List.nodup_append.1 (hperm.nodup_iff.1 hn)
    have hlen : s.nodes.length ≤ fuel := by
      simp at hfuel
      omega
    obtain ⟨q₁, hq₁, ht₁, hsame₁⟩ := meldPair_layout hk hca hcb hnab
    have hs₁ := hs.off hsame₁ fun x hx h => hd x h x (List.mem_append_left _ hx) rfl
    have hts₁ := hts.off hsame₁ fun x hx h => hd x h x (List.mem_append_right _ hx) rfl
    obtain ⟨hst, hsame₂⟩ := stack_layout ht₁.1 hts₁ (List.nodup_append.1 hnm).2.1
    have hs₂ := hs₁.off hsame₂ fun x hx h =>
      (List.nodup_append.1 hnm).2.2 x hx _ (List.mem_append_left _ List.mem_cons_self)
        (List.mem_singleton.1 h)
    have hroot := (PairingHeap.Tree.nodes_meld key ⟨a, ca⟩ ⟨b, cb⟩).subset List.mem_cons_self
    have hsame := hsame₁.trans (hsame₂.mono fun x hx => List.mem_singleton.1 hx ▸ hroot)
    obtain ⟨q', merged', hq', hst', hsame'⟩ := ih (hsame.deadline.trans hk) hs₂ hst hnm
      hlen
    refine ⟨q', merged', ?_, hst', ?_⟩
    · simp only [pairUp, show (q.links a).sibling = some b from hab, Option.bind_some, hq₁]
      exact hq'
    · refine (hsame.mono fun x hx => ?_).trans (hsame'.mono fun x hx => ?_)
      · exact hperm.symm.subset (List.mem_append_left _ hx)
      · exact hperm.symm.subset (hpm.subset hx)

/-- Melding a stack of trees one by one. -/
theorem meldAll_layout {r : PairingHeap.Tree Op} {ts : List (PairingHeap.Tree Op)}
    (hk : q.deadline = key) (hr : RootAt q.links r) (hts : Stacked q.links ts o)
    (hn : (r.nodes ++ ts.flatMap PairingHeap.Tree.nodes).Nodup) (hfuel : ts.length ≤ fuel) :
    ∃ q', q.meldAll fuel r.root o = some (q', (ts.foldl (PairingHeap.Tree.meld key) r).root) ∧
      RootAt q'.links (ts.foldl (PairingHeap.Tree.meld key) r) ∧
      SameOff (r.nodes ++ ts.flatMap PairingHeap.Tree.nodes) q q' := by
  induction ts generalizing q r o fuel with
  | nil =>
    cases hts
    exact ⟨q, by cases fuel <;> rfl, hr, ⟨rfl, rfl, fun x _ => rfl⟩⟩
  | cons t ts ih =>
    obtain ⟨fuel, rfl⟩ : ∃ n, fuel = n + 1 := Nat.exists_eq_add_one.2 (by simp at hfuel; omega)
    rw [List.flatMap_cons] at hn ⊢
    obtain ⟨-, hnt, hd⟩ := List.nodup_append.1 hn
    rw [← List.append_assoc] at hn ⊢
    obtain ⟨hnrt, -, hd'⟩ := List.nodup_append.1 hn
    obtain rfl := hts.1
    obtain ⟨ht, hts₁, hsame₁⟩ := unstack_layout hts hnt
    have hr₁ := hr.off hsame₁ fun x hx h =>
      hd x hx _ (List.mem_append_left _ List.mem_cons_self) (List.mem_singleton.1 h)
    obtain ⟨q₂, hq₂, hw, hsame₂⟩ := meld_layout (hsame₁.deadline.trans hk) hr₁ ht hnrt
    have hts₂ := hts₁.off hsame₂ fun x hx h => hd' x h x hx rfl
    have hroot : t.root ∈ r.nodes ++ t.nodes := List.mem_append_right _ List.mem_cons_self
    have hsame := (hsame₁.mono fun x hx => List.mem_singleton.1 hx ▸ hroot).trans hsame₂
    have hpm :=
      (PairingHeap.Tree.nodes_meld key r t).append_right (ts.flatMap PairingHeap.Tree.nodes)
    obtain ⟨q', hq', ht', hsame'⟩ := ih (hsame.deadline.trans hk) hw hts₂ (hpm.nodup_iff.2 hn)
      (Nat.le_of_succ_le_succ hfuel)
    refine ⟨q', ?_, ht', (hsame.mono fun x hx => ?_).trans (hsame'.mono fun x hx => ?_)⟩
    · simp only [meldAll, hq₂, hq', List.foldl_cons]
    · exact List.mem_append_left _ hx
    · exact hpm.subset hx

theorem mergeChildren_layout {f : Forest Op} (hk : q.deadline = key) (hf : Layout q.links f prev o)
    (hn : f.nodes.Nodup) (hfuel : f.nodes.length ≤ fuel) :
    ∃ q', q.mergeChildren fuel o = some (q', (mergePairs key f).map PairingHeap.Tree.root) ∧
      (∀ t ∈ mergePairs key f, RootAt q'.links t) ∧ SameOff f.nodes q q' := by
  cases f with
  | nil =>
    cases hf
    exact ⟨q, rfl, nofun, ⟨rfl, rfl, fun x _ => rfl⟩⟩
  | node x c s =>
    obtain rfl := hf.1
    obtain ⟨q₁, merged, hq₁, hts₁, hsame₁⟩ := pairUp_layout hk hf
      (show Stacked q.links [] none from rfl) (by simpa using hn) hfuel
    have hlen := Nat.le_trans (length_pairUp_le key (.node x c s)) hfuel
    have hpm := nodes_pairUp key (.node x c s) []
    rw [List.flatMap_nil, List.append_nil] at hpm hsame₁
    rw [mergePairs]
    cases hts : PairingHeap.pairUp key (.node x c s) [] with
    | nil => simp [hts] at hpm
    | cons r ts =>
      rw [hts] at hts₁ hpm hlen
      rw [List.flatMap_cons] at hpm
      have hn' := hpm.nodup_iff.2 hn
      obtain rfl := hts₁.1
      obtain ⟨hr, hts₂, hsame₂⟩ := unstack_layout hts₁ hn'
      obtain ⟨q', hq', ht', hsame'⟩ := meldAll_layout
        ((hsame₂.deadline.trans hsame₁.deadline).trans hk) hr hts₂ hn' (Nat.le_of_succ_le hlen)
      have hroot : r.root ∈ (Forest.node x c s).nodes :=
        hpm.subset (List.mem_append_left _ List.mem_cons_self)
      refine ⟨q', ?_, fun t ht => ?_, (hsame₁.trans ?_).trans (hsame'.mono fun y hy => ?_)⟩
      · simp only [mergeChildren, hq₁, hq', Option.map_some]
      · rw [← Option.mem_some_iff.1 ht]
        exact ht'
      · exact hsame₂.mono fun y hy => List.mem_singleton.1 hy ▸ hroot
      · exact hpm.subset hy

end Coio.TimerQueue
