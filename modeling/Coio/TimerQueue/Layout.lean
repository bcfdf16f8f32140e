import Coio.Lib.PairingHeap
import Coio.TimerQueue.Model

namespace Coio.TimerQueue
open PairingHeap
set_option autoImplicit true

/-- The links from `o` on spell out a list of trees, the first of which has the given `prev`. -/
def Layout (m : Op → TimerHeapLinks Op) : Forest Op → Option Op → Option Op → Prop
  | .nil, _, o => o = none
  | .node x c s, prev, o => o = some x ∧ (m x).prev = prev ∧
      Layout m c (some x) (m x).child ∧ Layout m s (some x) (m x).sibling

/-- The links of a root and of everything below it spell out a tree. -/
def TreeAt (m : Op → TimerHeapLinks Op) (t : PairingHeap.Tree Op) : Prop :=
  (m t.root).prev = none ∧ Layout m t.children (some t.root) (m t.root).child

/-- A well-formed tree that stands alone. -/
def RootAt (m : Op → TimerHeapLinks Op) (t : PairingHeap.Tree Op) : Prop :=
  TreeAt m t ∧ (m t.root).sibling = none

/-- The links that start at `o` spell out trees whose roots are stacked via `sibling`. -/
def Stacked (m : Op → TimerHeapLinks Op) : List (PairingHeap.Tree Op) → Option Op → Prop
  | [], o => o = none
  | t :: ts, o => o = some t.root ∧ TreeAt m t ∧ Stacked m ts (m t.root).sibling

/-- The two queues differ at most in the links of the listed nodes. -/
structure SameOff (l : List Op) (q q' : TimerQueue Op δ) : Prop where
  deadline : q'.deadline = q.deadline
  root : q'.root = q.root
  links : ∀ x ∉ l, q'.links x = q.links x

theorem SameOff.mono (h : SameOff l q q') (hl : ∀ x ∈ l, x ∈ l') : SameOff l' q q' where
  deadline := h.deadline
  root := h.root
  links x hx := h.links x fun hx' => hx (hl x hx')

theorem SameOff.trans (h : SameOff l q q') (h' : SameOff l q' q'') : SameOff l q q'' where
  deadline := h'.deadline.trans h.deadline
  root := h'.root.trans h.root
  links x hx := (h'.links x hx).trans (h.links x hx)

theorem Layout.head (h : Layout m t prev o) : o = t.head? := by
  cases t with
  | nil => exact h
  | node x c s => exact h.1

theorem Layout.frame (h : Layout m t prev o) (hm : ∀ x ∈ t.nodes, m' x = m x) :
    Layout m' t prev o := by
  induction t generalizing prev o with
  | nil => exact h
  | node x c s ihc ihs =>
    obtain ⟨ho, hp, hc, hs⟩ := h
    simp only [Forest.nodes_node, List.mem_cons, List.mem_append] at hm
    have hx := hm x (.inl rfl)
    refine ⟨ho, by rw [hx, hp], ?_, ?_⟩
    · rw [hx]
      exact ihc hc fun y hy => hm y (.inr (.inl hy))
    · rw [hx]
      exact ihs hs fun y hy => hm y (.inr (.inr hy))

theorem TreeAt.frame (h : TreeAt m t) (hr : (m' t.root).prev = (m t.root).prev)
    (hc : (m' t.root).child = (m t.root).child) (hm : ∀ x ∈ t.children.nodes, m' x = m x) :
    TreeAt m' t := by
  refine ⟨hr.trans h.1, ?_⟩
  rw [hc]
  exact h.2.frame hm

theorem Stacked.frame (h : Stacked m ts o)
    (hm : ∀ x ∈ ts.flatMap PairingHeap.Tree.nodes, m' x = m x) : Stacked m' ts o := by
  induction ts generalizing o with
  | nil => exact h
  | cons t ts ih =>
    obtain ⟨ho, ht, hs⟩ := h
    simp only [List.flatMap_cons, List.mem_append] at hm
    have hr := hm t.root (.inl (by simp [PairingHeap.Tree.nodes]))
    refine ⟨ho, ht.frame (by rw [hr]) (by rw [hr]) fun x hx => hm x (.inl ?_), ?_⟩
    · simp [PairingHeap.Tree.nodes, hx]
    · rw [hr]
      exact ih hs fun x hx => hm x (.inr hx)

theorem Layout.off {q : TimerQueue Op δ} (h : Layout q.links t prev o) (hs : SameOff l q q')
    (hd : ∀ x ∈ t.nodes, x ∉ l) :
    Layout q'.links t prev o :=
  h.frame fun x hx => hs.links x (hd x hx)

theorem TreeAt.off {q : TimerQueue Op δ} (h : TreeAt q.links t) (hs : SameOff l q q')
    (hd : ∀ x ∈ t.nodes, x ∉ l) :
    TreeAt q'.links t := by
  have hr := hs.links t.root (hd _ List.mem_cons_self)
  exact h.frame (by rw [hr]) (by rw [hr]) fun x hx => hs.links x (hd x (List.mem_cons_of_mem _ hx))

theorem RootAt.off {q : TimerQueue Op δ} (h : RootAt q.links t) (hs : SameOff l q q')
    (hd : ∀ x ∈ t.nodes, x ∉ l) : RootAt q'.links t := by
  refine ⟨h.1.off hs hd, ?_⟩
  rw [hs.links t.root (hd _ List.mem_cons_self)]
  exact h.2

theorem Stacked.off {q : TimerQueue Op δ} (h : Stacked q.links ts o) (hs : SameOff l q q')
    (hd : ∀ x ∈ ts.flatMap PairingHeap.Tree.nodes, x ∉ l) : Stacked q'.links ts o :=
  h.frame fun x hx => hs.links x (hd x hx)

variable [DecidableEq Op] {q : TimerQueue Op δ}

/-- Only the first root records where the list hangs. -/
theorem Layout.rehang {m m' : Op → TimerHeapLinks Op} (h : Layout m t prev o) (hn : t.nodes.Nodup)
    (hm : ∀ x ∈ t.nodes, m' x = if t.head? = some x then { m x with prev := p } else m x) :
    Layout m' t p o := by
  cases t with
  | nil => exact h
  | node x c s =>
    obtain ⟨ho, -, hc, hs⟩ := h
    obtain ⟨hx, -⟩ := List.nodup_cons.1 hn
    simp only [Forest.nodes_node, Forest.head?_node, Option.some.injEq, List.mem_cons] at hm
    have hmx : m' x = { m x with prev := p } := by
      rw [hm x (.inl rfl), if_pos rfl]
    have hrest : ∀ y ∈ c.nodes ++ s.nodes, m' y = m y := by
      intro y hy
      rw [hm y (.inr hy), if_neg]
      rintro rfl
      exact hx hy
    refine ⟨ho, by rw [hmx], ?_, ?_⟩
    · rw [hmx]
      exact hc.frame fun y hy => hrest y (List.mem_append_left _ hy)
    · rw [hmx]
      exact hs.frame fun y hy => hrest y (List.mem_append_right _ hy)

@[simp] theorem setPrev_links (x : Op) (p : Option Op) (y : Op) :
    (q.setPrev x p).links y = if y = x then { q.links x with prev := p } else q.links y :=
  Function.update_apply ..

@[simp] theorem setChild_links (x : Op) (c : Option Op) (y : Op) :
    (q.setChild x c).links y = if y = x then { q.links x with child := c } else q.links y :=
  Function.update_apply ..

@[simp] theorem setSibling_links (x : Op) (s : Option Op) (y : Op) :
    (q.setSibling x s).links y = if y = x then { q.links x with sibling := s } else q.links y :=
  Function.update_apply ..

@[simp] theorem clearLinks_links (x y : Op) :
    (q.clearLinks x).links y = if y = x then {} else q.links y :=
  Function.update_apply ..

theorem SameOff.setPrev {x : Op} (hx : x ∈ l) (p : Option Op) : SameOff l q (q.setPrev x p) :=
  ⟨rfl, rfl, fun y hy => Function.update_of_ne (fun h : y = x => hy (h ▸ hx)) ..⟩

theorem SameOff.setChild {x : Op} (hx : x ∈ l) (c : Option Op) : SameOff l q (q.setChild x c) :=
  ⟨rfl, rfl, fun y hy => Function.update_of_ne (fun h : y = x => hy (h ▸ hx)) ..⟩

theorem SameOff.setSibling {x : Op} (hx : x ∈ l) (s : Option Op) :
    SameOff l q (q.setSibling x s) :=
  ⟨rfl, rfl, fun y hy => Function.update_of_ne (fun h : y = x => hy (h ▸ hx)) ..⟩

theorem attach_links {a b : Op} (hab : a ≠ b) (ha : (q.links a).child ≠ some a)
    (hb : (q.links a).child ≠ some b) (x : Op) : (q.attach a b).links x =
      if x = a then { q.links a with child := some b }
      else if x = b then { q.links b with prev := some a, sibling := (q.links a).child }
      else if (q.links a).child = some x then { q.links x with prev := some b }
      else q.links x := by
  unfold attach
  dsimp only [setPrev, setSibling, setChild]
  cases hc : (q.links a).child with
  | none =>
    simp only [hc, ne_eq, hab, not_false_eq_true, Function.update_of_ne, Function.update_self,
      Function.update_idem, Function.update_apply, reduceCtorEq, if_false]
  | some c =>
    have hca : c ≠ a := fun h => ha (hc.trans (congrArg some h))
    have hcb : c ≠ b := fun h => hb (hc.trans (congrArg some h))
    simp only [hc, ne_eq, hab, hca.symm, hcb, not_false_eq_true, Function.update_of_ne,
      Function.update_self, Function.update_idem, Function.update_apply, Option.some.injEq]
    grind

theorem attach_deadline (a b : Op) : (q.attach a b).deadline = q.deadline := by
  unfold attach
  dsimp only
  split <;> rfl

theorem attach_root (a b : Op) : (q.attach a b).root = q.root := by
  unfold attach
  dsimp only
  split <;> rfl

/-- Linking one root below another joins the two trees and touches nothing else. -/
theorem attach_layout {a b : PairingHeap.Tree Op} (ha : TreeAt q.links a) (hb : TreeAt q.links b)
    (hn : (a.nodes ++ b.nodes).Nodup) :
    TreeAt (q.attach a.root b.root).links ⟨a.root, .node b.root b.children a.children⟩ ∧
      ((q.attach a.root b.root).links a.root).sibling = (q.links a.root).sibling ∧
      SameOff (a.nodes ++ b.nodes) q (q.attach a.root b.root) := by
  obtain ⟨hna, hnb, hd⟩ := List.nodup_append.1 hn
  obtain ⟨hra, hca⟩ := List.nodup_cons.1 hna
  obtain ⟨hrb, -⟩ := List.nodup_cons.1 hnb
  have hab : a.root ≠ b.root := hd _ List.mem_cons_self _ List.mem_cons_self
  have hhead := ha.2.head
  have hmem : ∀ x, (q.links a.root).child = some x → x ∈ a.children.nodes := fun x hx =>
    Forest.mem_of_head? (hhead.symm.trans hx)
  have hlinks := attach_links (q := q) hab (fun h => hra (hmem _ h))
    (fun h => hd _ (List.mem_cons_of_mem _ (hmem _ h)) _ List.mem_cons_self rfl)
  refine ⟨⟨by simp [hlinks, ha.1], by simp [hlinks], by simp [hlinks, hab.symm], ?_, ?_⟩,
    by simp [hlinks], attach_deadline _ _, attach_root _ _, ?_⟩
  · simp only [hlinks, if_true, hab.symm, if_false]
    refine hb.2.frame fun x hx => ?_
    have hxa : x ≠ a.root := fun h => hd _ List.mem_cons_self _ (List.mem_cons_of_mem _ hx) h.symm
    have hxb : x ≠ b.root := fun h => hrb (h ▸ hx)
    have hxc : (q.links a.root).child ≠ some x := fun h =>
      hd _ (List.mem_cons_of_mem _ (hmem x h)) _ (List.mem_cons_of_mem _ hx) rfl
    rw [hlinks, if_neg hxa, if_neg hxb, if_neg hxc]
  · simp only [hlinks, if_true, hab.symm, if_false]
    refine ha.2.rehang hca fun x hx => ?_
    have hxa : x ≠ a.root := fun h => hra (h ▸ hx)
    have hxb : x ≠ b.root := hd _ (List.mem_cons_of_mem _ hx) _ List.mem_cons_self
    rw [hlinks, if_neg hxa, if_neg hxb, hhead]
  · intro x hx
    simp only [List.mem_append, PairingHeap.Tree.nodes, List.mem_cons, not_or] at hx
    rw [hlinks, if_neg hx.1.1, if_neg hx.2.1, if_neg fun h => hx.1.2 (hmem x h)]

variable [LinearOrder δ]

theorem meld_eq (a b : Op) : q.meld a b =
    if q.deadline b < q.deadline a then (q.attach b a, b) else (q.attach a b, a) := by
  by_cases h : q.deadline b < q.deadline a
  · simp only [meld, h, if_true]
  · simp only [meld, h, if_false]

/-- `meld` on the links computes `meld` on the trees that they spell out. -/
theorem meld_layout {a b : PairingHeap.Tree Op} (hk : q.deadline = key) (ha : RootAt q.links a)
    (hb : RootAt q.links b) (hn : (a.nodes ++ b.nodes).Nodup) :
    ∃ q', q.meld a.root b.root = (q', (PairingHeap.Tree.meld key a b).root) ∧
      RootAt q'.links (PairingHeap.Tree.meld key a b) ∧ SameOff (a.nodes ++ b.nodes) q q' := by
  subst hk
  rw [meld_eq, PairingHeap.Tree.meld]
  split
  · obtain ⟨ht, hs, hf⟩ := attach_layout hb.1 ha.1 (List.perm_append_comm.nodup_iff.1 hn)
    exact ⟨_, rfl, ⟨ht, hs.trans hb.2⟩,
      hf.mono fun x hx => List.mem_append.2 (List.mem_append.1 hx).symm⟩
  · obtain ⟨ht, hs, hf⟩ := attach_layout ha.1 hb.1 hn
    exact ⟨_, rfl, ⟨ht, hs.trans ha.2⟩, hf⟩

end Coio.TimerQueue
