import Mathlib.Logic.Relation
import Coio.TimerQueue.Spec

namespace Coio.TimerQueue
open PairingHeap Relation
set_option autoImplicit true

def PrevOf (m : Op → TimerHeapLinks Op) (p x : Op) : Prop := (m x).prev = some p

def SiblingOf (m : Op → TimerHeapLinks Op) (x y : Op) : Prop := (m x).sibling = some y

/-- `x` is the first child of `p` or follows it in the sibling list. -/
def ParentOf (m : Op → TimerHeapLinks Op) (p x : Op) : Prop :=
  ∃ c, (m p).child = some c ∧ ReflTransGen (SiblingOf m) c x

/-- The links form a pairing heap. -/
structure WellFormed [LE δ] (q : TimerQueue Op δ) : Prop where
  root : q.root = some r → (q.links r).prev = none ∧ (q.links r).sibling = none
  child : (q.links p).child = some x → (q.links x).prev = some p
  sibling : (q.links p).sibling = some x → (q.links x).prev = some p
  prev : (q.links x).prev = some p →
    ((q.links p).child = some x ∧ (q.links p).sibling ≠ some x) ∨
      ((q.links p).sibling = some x ∧ (q.links p).child ≠ some x)
  connected : q.root = some x ∨ (q.links x).prev ≠ none →
    ∃ r, q.root = some r ∧ ReflTransGen (PrevOf q.links) r x
  acyclic : ¬ TransGen (PrevOf q.links) x x
  ordered : ParentOf q.links p x → q.deadline p ≤ q.deadline x

variable {m : Op → TimerHeapLinks Op}

theorem Layout.head_prev (h : Layout m f prev (some x)) : x ∈ f.nodes ∧ (m x).prev = prev := by
  cases f with
  | nil => cases h
  | node y c s =>
    obtain ⟨hxy, hp, -⟩ := h
    obtain rfl := Option.some.inj hxy
    exact ⟨List.mem_cons_self, hp⟩

/-- What the links of a node in a list of trees lead to. -/
theorem Layout.below [LE δ] (key : Op → δ) {f : Forest Op} (h : Layout m f prev o)
    (hn : f.nodes.Nodup) (hp : p ∈ f.nodes) :
    ∃ c s, Layout m c (some p) (m p).child ∧ Layout m s (some p) (m p).sibling ∧
      (c.nodes ++ s.nodes).Nodup ∧ (∀ y ∈ c.nodes ++ s.nodes, y ∈ f.nodes) ∧
      (f.Ordered key → ∀ y ∈ c.nodes, key p ≤ key y) := by
  induction f generalizing prev o with
  | nil => cases hp
  | node y c s ihc ihs =>
    have hnsub := (List.nodup_cons.1 hn).2
    obtain ⟨hnc, hns, -⟩ := List.nodup_append.1 hnsub
    rw [Forest.nodes_node, List.mem_cons, List.mem_append] at hp
    rcases hp with rfl | hp | hp
    · exact ⟨c, s, h.2.2.1, h.2.2.2, hnsub, fun y hy => List.mem_cons_of_mem _ hy, fun ho => ho.1⟩
    · obtain ⟨c', s', hc, hs, hn', hsub, ho⟩ := ihc h.2.2.1 hnc hp
      exact ⟨c', s', hc, hs, hn',
        fun y hy => List.mem_cons_of_mem _ (List.mem_append_left _ (hsub y hy)),
        fun ho' => ho ho'.2.1⟩
    · obtain ⟨c', s', hc, hs, hn', hsub, ho⟩ := ihs h.2.2.2 hns hp
      exact ⟨c', s', hc, hs, hn',
        fun y hy => List.mem_cons_of_mem _ (List.mem_append_right _ (hsub y hy)),
        fun ho' => ho ho'.2.2⟩

/-- Every node of a list but its first hangs on another node of the list. -/
theorem Layout.above {f : Forest Op} (h : Layout m f prev o) (hx : x ∈ f.nodes) :
    f.head? = some x ∨
      ∃ p, (m x).prev = some p ∧ ((m p).child = some x ∨ (m p).sibling = some x) := by
  induction f generalizing prev o with
  | nil => cases hx
  | node y c s ihc ihs =>
    obtain ⟨-, -, hc, hs⟩ := h
    rw [Forest.nodes_node, List.mem_cons, List.mem_append] at hx
    rcases hx with rfl | hx | hx
    · exact .inl rfl
    · rcases ihc hc hx with he | hp
      · rw [← hc.head] at he
        exact .inr ⟨y, (he ▸ hc).head_prev.2, .inl he⟩
      · exact .inr hp
    · rcases ihs hs hx with he | hp
      · rw [← hs.head] at he
        exact .inr ⟨y, (he ▸ hs).head_prev.2, .inr he⟩
      · exact .inr hp

theorem Layout.connected {f : Forest Op} (h : Layout m f prev o) (hx : x ∈ f.nodes) :
    ∃ r, f.head? = some r ∧ ReflTransGen (PrevOf m) r x := by
  induction f generalizing prev o with
  | nil => cases hx
  | node y c s ihc ihs =>
    obtain ⟨-, -, hc, hs⟩ := h
    rw [Forest.nodes_node, List.mem_cons, List.mem_append] at hx
    refine ⟨y, rfl, ?_⟩
    rcases hx with rfl | hx | hx
    · exact .refl
    · obtain ⟨r, hr, hrx⟩ := ihc hc hx
      rw [← hc.head] at hr
      exact .head (hr ▸ hc).head_prev.2 hrx
    · obtain ⟨r, hr, hrx⟩ := ihs hs hx
      rw [← hs.head] at hr
      exact .head (hr ▸ hs).head_prev.2 hrx

theorem Layout.siblings_mem {f : Forest Op} (h : Layout m f prev o) (hn : f.nodes.Nodup)
    (hx : x ∈ f.nodes) (hxy : ReflTransGen (SiblingOf m) x y) : y ∈ f.nodes := by
  induction hxy with
  | refl => exact hx
  | @tail y z _ hyz ih =>
    obtain ⟨c, s, -, hs, -, hsub, -⟩ := h.below (fun _ => 0) hn ih
    exact hsub z (List.mem_append_right _ (show Layout m s _ (some z) from hyz ▸ hs).head_prev.1)

/-- Whatever hangs below a node without a `prev` is not its own ancestor. -/
theorem acyclic_of_connected (hr : (m r).prev = none) (h : ReflTransGen (PrevOf m) r x) :
    ¬ TransGen (PrevOf m) x x := by
  induction h with
  | refl =>
    intro hc
    obtain ⟨y, -, hy⟩ := TransGen.tail'_iff.1 hc
    rw [PrevOf, hr] at hy
    cases hy
  | @tail y z _ hyz ih =>
    intro hc
    obtain ⟨w, hzw, hw⟩ := TransGen.tail'_iff.1 hc
    obtain rfl : w = y := Option.some.inj (hw.symm.trans hyz)
    exact ih (.head' hyz hzw)

theorem Spells.layout [LinearOrder δ] {q : TimerQueue Op δ} (h : Spells q t) :
    ∃ f, Layout q.links f none q.root ∧ f.nodes = nodesOf t ∧ f.Ordered q.deadline := by
  have hroot := h.root
  cases t with
  | none => exact ⟨.nil, hroot, rfl, trivial⟩
  | some r =>
    obtain ⟨⟨hp, hc⟩, hs⟩ := h.tree r rfl
    obtain ⟨ho, hoc⟩ := h.ordered r rfl
    exact ⟨.node r.root r.children .nil, ⟨hroot, hp, hc, hs⟩, by simp, ho, hoc, trivial⟩

/-- A node is in the heap iff it is the root or has a `prev`. -/
theorem Spells.mem_iff [LinearOrder δ] {q : TimerQueue Op δ} (h : Spells q t) :
    x ∈ nodesOf t ↔ q.root = some x ∨ (q.links x).prev ≠ none := by
  obtain ⟨f, hf, hnodes, -⟩ := h.layout
  constructor
  · intro hx
    rcases hf.above (hnodes ▸ hx) with he | ⟨p, hp, -⟩
    · exact .inl (hf.head.trans he)
    · exact .inr (by simp [hp])
  · rintro (hr | hp)
    · rw [← hnodes]
      exact Forest.mem_of_head? (hf.head.symm.trans hr)
    · by_contra hx
      exact hp (by rw [h.unlinked x hx])

theorem Spells.wellFormed [LinearOrder δ] {q : TimerQueue Op δ} (h : Spells q t) :
    WellFormed q := by
  obtain ⟨f, hf, hnodes, hord⟩ := h.layout
  have hn : f.nodes.Nodup := hnodes ▸ h.nodup
  have hmem : ∀ x, x ∉ f.nodes → q.links x = {} := fun x hx => h.unlinked x (hnodes ▸ hx)
  have hroot : ∀ r, q.root = some r → (q.links r).prev = none ∧ (q.links r).sibling = none := by
    intro r hr
    obtain ⟨u, rfl, rfl⟩ := Option.map_eq_some_iff.1 (h.root.symm.trans hr)
    exact ⟨(h.tree u rfl).1.1, (h.tree u rfl).2⟩
  have hconn : ∀ x, q.root = some x ∨ (q.links x).prev ≠ none →
      ∃ r, q.root = some r ∧ ReflTransGen (PrevOf q.links) r x := by
    intro x hx
    rw [hf.head]
    exact hf.connected (hnodes ▸ h.mem_iff.2 hx)
  constructor
  case root => exact hroot _
  case child =>
    intro p x hx
    by_cases hp : p ∈ f.nodes
    · obtain ⟨c, s, hc, -⟩ := hf.below q.deadline hn hp
      exact (hx ▸ hc).head_prev.2
    · simp [hmem p hp] at hx
  case sibling =>
    intro p x hx
    by_cases hp : p ∈ f.nodes
    · obtain ⟨c, s, -, hs, -⟩ := hf.below q.deadline hn hp
      exact (hx ▸ hs).head_prev.2
    · simp [hmem p hp] at hx
  case prev =>
    intro x p hxp
    have hx : x ∈ f.nodes := hnodes ▸ h.mem_iff.2 (.inr (by simp [hxp]))
    rcases hf.above hx with he | ⟨p', hp', hcs⟩
    · rw [(hroot x (hf.head.trans he)).1] at hxp
      cases hxp
    obtain rfl : p' = p := Option.some.inj (hp'.symm.trans hxp)
    have hp : p' ∈ f.nodes := by
      by_contra hp
      simp [hmem p' hp] at hcs
    obtain ⟨c, s, hc, hs, hncs, -⟩ := hf.below q.deadline hn hp
    have hd : ¬ ((q.links p').child = some x ∧ (q.links p').sibling = some x) := fun hb =>
      (List.nodup_append.1 hncs).2.2 x (hb.1 ▸ hc).head_prev.1 x (hb.2 ▸ hs).head_prev.1 rfl
    exact hcs.imp (fun h1 => ⟨h1, fun h2 => hd ⟨h1, h2⟩⟩) fun h2 => ⟨h2, fun h1 => hd ⟨h1, h2⟩⟩
  case connected => exact hconn _
  case acyclic =>
    intro x hx
    obtain ⟨y, -, hyx⟩ := TransGen.tail'_iff.1 hx
    obtain ⟨r, hr, hrx⟩ := hconn x (.inr (by simp [show (q.links x).prev = some y from hyx]))
    exact acyclic_of_connected (hroot r hr).1 hrx hx
  case ordered =>
    rintro p x ⟨z, hz, hzx⟩
    have hp : p ∈ f.nodes := by
      by_contra hp
      simp [hmem p hp] at hz
    obtain ⟨c, s, hc, -, hncs, -, hle⟩ := hf.below q.deadline hn hp
    have hzc : z ∈ c.nodes := (hz ▸ hc).head_prev.1
    exact hle hord x (hc.siblings_mem (List.nodup_append.1 hncs).1 hzc hzx)

end Coio.TimerQueue
