import Coio.TimerQueue.Loops

namespace Coio.TimerQueue
open PairingHeap
set_option autoImplicit true

variable [DecidableEq Op]

/-- The links after `x` is cut out behind `p`, its parent or previous sibling. -/
def cut (m : Op → TimerHeapLinks Op) (x p y : Op) : TimerHeapLinks Op :=
  if y = p then
    if (m p).child = some x then { m p with child := (m x).sibling }
    else { m p with sibling := (m x).sibling }
  else if (m x).sibling = some y then { m y with prev := some p }
  else m y

theorem cut_of_ne {m : Op → TimerHeapLinks Op} {x p y : Op} (hp : y ≠ p)
    (hs : (m x).sibling ≠ some y) : cut m x p y = m y := by
  rw [cut, if_neg hp, if_neg hs]

theorem unlink_eq {q : TimerQueue Op δ} {x p : Op} (hp : (q.links x).prev = some p)
    (hs : (q.links x).sibling ≠ some p) :
    q.unlink x = some { q with links := cut q.links x p } := by
  by_cases hc : (q.links p).child = some x <;> cases hsib : (q.links x).sibling with
  | none =>
    simp only [unlink, hp, hc, hsib, if_true, if_false, Option.map_some, setChild, setSibling]
    congr
    funext y
    simp only [cut, hc, hsib, if_true, if_false, Function.update_apply, reduceCtorEq]
  | some s =>
    have hsp : s ≠ p := fun h => hs (hsib.trans (congrArg some h))
    simp only [unlink, hp, hc, hsib, if_true, if_false, Option.map_some, setChild, setSibling,
      setPrev]
    congr
    funext y
    simp only [cut, hc, hsib, if_true, if_false, Function.update_apply, Option.some.injEq, hsp]
    grind

/-- What the links of a node that is not the first of its list tell about it. -/
structure Cuttable (m : Op → TimerHeapLinks Op) (f : Forest Op) (x p : Op)
    (r o : Option Op) : Prop where
  prev : (m x).prev = some p
  mem : p ∈ (f.unlink x).nodes
  sibling : ∀ y, (m x).sibling = some y → y ∈ (f.unlink x).nodes ∧ y ≠ p
  layout : Layout (cut m x p) (f.unlink x) r o
  children : Layout m (f.childrenOf x) (some x) (m x).child

/-- Cutting out the first node of a list hangs its siblings below `p`. -/
theorem Layout.cut_head {m : Op → TimerHeapLinks Op} {x p : Op} {s : Forest Op}
    (h : Layout m s (some x) (m x).sibling) (hn : s.nodes.Nodup) (hp : p ∉ s.nodes) :
    Layout (cut m x p) s (some p) (m x).sibling := by
  refine h.rehang hn fun y hy => ?_
  have hyp : y ≠ p := fun he => hp (he ▸ hy)
  rw [cut, if_neg hyp, h.head]

variable {m : Op → TimerHeapLinks Op} {c s : Forest Op}

theorem Cuttable.frame (h : Cuttable m s x p r o) (hz : z ∉ (s.unlink x).nodes) :
    cut m x p z = m z :=
  cut_of_ne (fun he => hz (he ▸ h.mem)) fun he => hz (h.sibling z he).1

theorem Layout.cuttable_firstChild (h : Layout m (.node y (.node x c' s') s) r o)
    (hn : (Forest.node y (.node x c' s') s).nodes.Nodup) :
    Cuttable m (.node y (.node x c' s') s) x y r o := by
  obtain ⟨ho, hp, ⟨hxy, hpx, hc', hs'⟩, hs⟩ := h
  simp only [Forest.nodes_node, List.cons_append, List.nodup_cons, List.mem_cons, List.mem_append,
    List.nodup_append, not_or] at hn
  obtain ⟨⟨hyx, ⟨-, hys'⟩, hys⟩, ⟨-, hxs⟩, ⟨-, hns', -⟩, -, hd⟩ := hn
  have hhead := hs'.head
  have hu : (Forest.node y (.node x c' s') s).unlink x = .node y s' s := by
    rw [Forest.unlink, if_neg hyx, Forest.unlink, if_pos rfl, Forest.unlink_of_notMem hxs]
  have hcut : cut m x y y = { m y with child := (m x).sibling } := by
    rw [cut, if_pos rfl, if_pos hxy]
  refine ⟨hpx, ?_, fun z hz => ?_, ?_, ?_⟩
  · rw [hu]
    exact List.mem_cons_self
  · have hzs := Forest.mem_of_head? (hhead.symm.trans hz)
    rw [hu]
    exact ⟨List.mem_cons_of_mem _ (List.mem_append_left _ hzs), fun he => hys' (he ▸ hzs)⟩
  · rw [hu]
    refine ⟨ho, ?_, ?_, ?_⟩
    · rw [hcut, hp]
    · rw [hcut]
      exact hs'.cut_head hns' hys'
    · rw [hcut]
      refine hs.frame fun z hz => cut_of_ne (fun he => hys (he ▸ hz)) fun he => ?_
      exact hd z (.inr (Forest.mem_of_head? (hhead.symm.trans he))) z hz rfl
  · rw [Forest.childrenOf, if_neg hyx, if_pos (by simp), Forest.childrenOf_head]
    exact hc'

theorem Layout.cuttable_nextSibling (h : Layout m (.node y c (.node x c' s')) r o)
    (hn : (Forest.node y c (.node x c' s')).nodes.Nodup) :
    Cuttable m (.node y c (.node x c' s')) x y r o := by
  obtain ⟨ho, hp, hc, hxy, hpx, hc', hs'⟩ := h
  simp only [Forest.nodes_node, List.nodup_cons, List.mem_cons, List.mem_append,
    List.nodup_append, not_or] at hn
  obtain ⟨⟨hyc, hyx, -, hys'⟩, -, ⟨-, -, hns', -⟩, hd⟩ := hn
  have hxc : x ∉ c.nodes := fun hx => hd x hx x (.inl rfl) rfl
  have hchild : (m y).child ≠ some x := fun he => hxc (Forest.mem_of_head? (hc.head.symm.trans he))
  have hu : (Forest.node y c (.node x c' s')).unlink x = .node y c s' := by
    rw [Forest.unlink, if_neg hyx, Forest.unlink_of_notMem hxc, Forest.unlink, if_pos rfl]
  have hcut : cut m x y y = { m y with sibling := (m x).sibling } := by
    rw [cut, if_pos rfl, if_neg hchild]
  refine ⟨hpx, ?_, fun z hz => ?_, ?_, ?_⟩
  · rw [hu]
    exact List.mem_cons_self
  · have hzs := Forest.mem_of_head? (hs'.head.symm.trans hz)
    rw [hu]
    exact ⟨List.mem_cons_of_mem _ (List.mem_append_right _ hzs), fun he => hys' (he ▸ hzs)⟩
  · rw [hu]
    refine ⟨ho, ?_, ?_, ?_⟩
    · rw [hcut, hp]
    · rw [hcut]
      refine hc.frame fun z hz => cut_of_ne (fun he => hyc (he ▸ hz)) fun he => ?_
      exact hd z hz z (.inr (.inr (Forest.mem_of_head? (hs'.head.symm.trans he)))) rfl
    · rw [hcut]
      exact hs'.cut_head hns' hys'
  · rw [Forest.childrenOf, if_neg hyx, if_neg hxc, Forest.childrenOf_head]
    exact hc'

theorem Cuttable.below (hx : Cuttable m c x p (some y) (m y).child)
    (h : Layout m (.node y c s) r o) (hn : (Forest.node y c s).nodes.Nodup) (hxc : x ∈ c.nodes) :
    Cuttable m (.node y c s) x p r o := by
  obtain ⟨ho, hp, -, hs⟩ := h
  simp only [Forest.nodes_node, List.nodup_cons, List.mem_append, List.nodup_append, not_or] at hn
  obtain ⟨⟨hyc, -⟩, -, -, hd⟩ := hn
  have hyx : y ≠ x := fun he => hyc (he ▸ hxc)
  have hyc' : y ∉ (c.unlink x).nodes := fun h => hyc (Forest.unlink_subset h)
  have hxs : x ∉ s.nodes := fun hxs => hd x hxc x hxs rfl
  have hu : (Forest.node y c s).unlink x = .node y (c.unlink x) s := by
    rw [Forest.unlink, if_neg hyx, Forest.unlink_of_notMem hxs]
  have hmem : ∀ z ∈ (c.unlink x).nodes, z ∈ ((Forest.node y c s).unlink x).nodes := by
    intro z hz
    rw [hu]
    exact List.mem_cons_of_mem _ (List.mem_append_left _ hz)
  refine ⟨hx.prev, hmem p hx.mem, fun z hz => ⟨hmem z (hx.sibling z hz).1, (hx.sibling z hz).2⟩,
    ?_, ?_⟩
  · rw [hu]
    refine ⟨ho, ?_, ?_, ?_⟩
    · rw [hx.frame hyc', hp]
    · rw [hx.frame hyc']
      exact hx.layout
    · rw [hx.frame hyc']
      exact hs.frame fun z hz => hx.frame fun hzc => hd z (Forest.unlink_subset hzc) z hz rfl
  · rw [Forest.childrenOf, if_neg hyx, if_pos hxc]
    exact hx.children

theorem Cuttable.after (hx : Cuttable m s x p (some y) (m y).sibling)
    (h : Layout m (.node y c s) r o) (hn : (Forest.node y c s).nodes.Nodup) (hxs : x ∈ s.nodes) :
    Cuttable m (.node y c s) x p r o := by
  obtain ⟨ho, hp, hc, -⟩ := h
  simp only [Forest.nodes_node, List.nodup_cons, List.mem_append, List.nodup_append, not_or] at hn
  obtain ⟨⟨-, hys⟩, -, -, hd⟩ := hn
  have hyx : y ≠ x := fun he => hys (he ▸ hxs)
  have hys' : y ∉ (s.unlink x).nodes := fun h => hys (Forest.unlink_subset h)
  have hxc : x ∉ c.nodes := fun hxc => hd x hxc x hxs rfl
  have hu : (Forest.node y c s).unlink x = .node y c (s.unlink x) := by
    rw [Forest.unlink, if_neg hyx, Forest.unlink_of_notMem hxc]
  have hmem : ∀ z ∈ (s.unlink x).nodes, z ∈ ((Forest.node y c s).unlink x).nodes := by
    intro z hz
    rw [hu]
    exact List.mem_cons_of_mem _ (List.mem_append_right _ hz)
  refine ⟨hx.prev, hmem p hx.mem, fun z hz => ⟨hmem z (hx.sibling z hz).1, (hx.sibling z hz).2⟩,
    ?_, ?_⟩
  · rw [hu]
    refine ⟨ho, ?_, ?_, ?_⟩
    · rw [hx.frame hys', hp]
    · rw [hx.frame hys']
      exact hc.frame fun z hz => hx.frame fun hzs => hd z hz z (Forest.unlink_subset hzs) rfl
    · rw [hx.frame hys']
      exact hx.layout
  · rw [Forest.childrenOf, if_neg hyx, if_neg hxc]
    exact hx.children

/-- Every node but the first of a list can be cut out. -/
theorem Layout.cuttable {f : Forest Op} (h : Layout m f r o) (hn : f.nodes.Nodup)
    (hx : x ∈ f.nodes) (hh : f.head? ≠ some x) : ∃ p, Cuttable m f x p r o := by
  induction f generalizing r o with
  | nil => cases hx
  | node y c s ihc ihs =>
    have hyx : y ≠ x := fun he => hh (by rw [he, Forest.head?_node])
    have hnsub := (List.nodup_cons.1 hn).2
    obtain ⟨hnc, hns, -⟩ := List.nodup_append.1 hnsub
    rcases List.mem_append.1 ((List.mem_cons.1 hx).resolve_left hyx.symm) with hxc | hxs
    · by_cases hhc : c.head? = some x
      · cases c with
        | nil => cases hhc
        | node z c' s' =>
          obtain rfl := Option.some.inj hhc
          exact ⟨y, h.cuttable_firstChild hn⟩
      · obtain ⟨p, hp⟩ := ihc h.2.2.1 hnc hxc hhc
        exact ⟨p, hp.below h hn hxc⟩
    · by_cases hhs : s.head? = some x
      · cases s with
        | nil => cases hhs
        | node z c' s' =>
          obtain rfl := Option.some.inj hhs
          exact ⟨y, h.cuttable_nextSibling hn⟩
      · obtain ⟨p, hp⟩ := ihs h.2.2.2 hns hxs hhs
        exact ⟨p, hp.after h hn hxs⟩

theorem unlink_layout {q : TimerQueue Op δ} {r : PairingHeap.Tree Op} (hr : RootAt q.links r)
    (hn : r.nodes.Nodup) (hx : x ∈ r.children.nodes) :
    ∃ q', q.unlink x = some q' ∧ (q.links x).prev ≠ none ∧
      RootAt q'.links ⟨r.root, r.children.unlink x⟩ ∧
      Layout q'.links (r.children.childrenOf x) (some x) (q'.links x).child ∧
      SameOff r.nodes q q' := by
  have hrx : r.root ≠ x := fun he => (List.nodup_cons.1 hn).1 (he ▸ hx)
  have hf : Layout q.links (.node r.root r.children .nil) none (some r.root) :=
    ⟨rfl, hr.1.1, hr.1.2, hr.2⟩
  have hnodes : (Forest.node r.root r.children .nil).nodes = r.nodes := by
    simp [PairingHeap.Tree.nodes]
  have hu : (Forest.node r.root r.children .nil).unlink x =
      .node r.root (r.children.unlink x) .nil := by
    rw [Forest.unlink, if_neg hrx, Forest.unlink]
  have hch : (Forest.node r.root r.children .nil).childrenOf x = r.children.childrenOf x := by
    rw [Forest.childrenOf, if_neg hrx, if_pos hx]
  have hxf : x ∈ (Forest.node r.root r.children .nil).nodes := by simp [hx]
  obtain ⟨p, hp⟩ := hf.cuttable (hnodes ▸ hn) hxf (by simpa using hrx)
  have hpm := Forest.nodes_unlink (hnodes ▸ hn) hxf
  obtain ⟨hxn, hnn⟩ := List.nodup_cons.1 (hpm.nodup_iff.2 (hnodes ▸ hn))
  have hcx : cut q.links x p x = q.links x := hp.frame fun h => hxn (List.mem_append_right _ h)
  refine ⟨_, unlink_eq hp.prev fun h => (hp.sibling p h).2 rfl, by simp [hp.prev], ?_, ?_, ?_⟩
  · have hl := hp.layout
    rw [hu] at hl
    exact ⟨⟨hl.2.1, hl.2.2.1⟩, hl.2.2.2⟩
  · have hl := hp.children.frame fun z hz => hp.frame fun h =>
      (List.nodup_append.1 hnn).2.2 z hz z h rfl
    rw [hch] at hl
    dsimp only
    rw [hcx]
    exact hl
  · refine ⟨rfl, rfl, fun z hz => hp.frame fun h => hz ?_⟩
    rw [← hnodes]
    exact Forest.unlink_subset h

end Coio.TimerQueue
