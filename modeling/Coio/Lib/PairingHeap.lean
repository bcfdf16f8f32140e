import Mathlib.Data.List.Perm.Basic
import Mathlib.Order.Lattice

namespace PairingHeap
set_option autoImplicit true

/-- A list of heap-ordered trees in first-child, next-sibling form. -/
inductive Forest (ν : Type u)
  | nil
  | node (x : ν) (child sibling : Forest ν)
  deriving DecidableEq, Repr

namespace Forest

def nodes : Forest ν → List ν
  | nil => []
  | node x c s => x :: (c.nodes ++ s.nodes)

@[simp] theorem nodes_nil : (nil : Forest ν).nodes = [] := rfl

@[simp] theorem nodes_node (x : ν) (c s : Forest ν) :
    (node x c s).nodes = x :: (c.nodes ++ s.nodes) := rfl

def head? : Forest ν → Option ν
  | nil => none
  | node x _ _ => some x

@[simp] theorem head?_nil : (nil : Forest ν).head? = none := rfl

@[simp] theorem head?_node (x : ν) (c s : Forest ν) : (node x c s).head? = some x := rfl

theorem mem_of_head? {t : Forest ν} (h : t.head? = some x) : x ∈ t.nodes := by
  cases t with
  | nil => cases h
  | node y c s =>
    cases h
    exact List.mem_cons_self

/-- No node below another one has a smaller key. -/
def Ordered [LE δ] (key : ν → δ) : Forest ν → Prop
  | nil => True
  | node x c s => (∀ y ∈ c.nodes, key x ≤ key y) ∧ c.Ordered key ∧ s.Ordered key

theorem Ordered.congr [LE δ] {key key' : ν → δ} {t : Forest ν} (h : t.Ordered key)
    (hk : ∀ x ∈ t.nodes, key' x = key x) : t.Ordered key' := by
  induction t with
  | nil => trivial
  | node x c s ihc ihs =>
    simp only [nodes_node, List.mem_cons, List.mem_append] at hk
    refine ⟨fun y hy => ?_, ihc h.2.1 fun y hy => hk y (.inr (.inl hy)),
      ihs h.2.2 fun y hy => hk y (.inr (.inr hy))⟩
    rw [hk x (.inl rfl), hk y (.inr (.inl hy))]
    exact h.1 y hy

/-- Cut out the tree of a node; its next sibling takes its place. -/
def unlink [DecidableEq ν] (x : ν) : Forest ν → Forest ν
  | nil => nil
  | node y c s => if y = x then s else node y (c.unlink x) (s.unlink x)

/-- The children of a node. -/
def childrenOf [DecidableEq ν] (x : ν) : Forest ν → Forest ν
  | nil => nil
  | node y c s =>
    if y = x then c else if x ∈ c.nodes then c.childrenOf x else s.childrenOf x

@[simp] theorem childrenOf_head [DecidableEq ν] (x : ν) (c s : Forest ν) :
    (node x c s).childrenOf x = c := by
  rw [childrenOf, if_pos rfl]

theorem unlink_of_notMem [DecidableEq ν] {x : ν} {t : Forest ν} (h : x ∉ t.nodes) :
    t.unlink x = t := by
  induction t with
  | nil => rfl
  | node y c s ihc ihs =>
    simp only [nodes_node, List.mem_cons, List.mem_append, not_or] at h
    rw [unlink, if_neg (Ne.symm h.1), ihc h.2.1, ihs h.2.2]

theorem nodes_unlink [DecidableEq ν] {x : ν} {t : Forest ν} (hn : t.nodes.Nodup)
    (h : x ∈ t.nodes) : (x :: ((t.childrenOf x).nodes ++ (t.unlink x).nodes)).Perm t.nodes := by
  induction t with
  | nil => cases h
  | node y c s ihc ihs =>
    obtain ⟨hy, hn⟩ := List.nodup_cons.1 hn
    obtain ⟨hnc, hns, hd⟩ := List.nodup_append.1 hn
    by_cases hyx : y = x
    · subst hyx
      rw [childrenOf, unlink, if_pos rfl, if_pos rfl]
      exact .refl _
    · rw [childrenOf, unlink, if_neg hyx, if_neg hyx]
      by_cases hc : x ∈ c.nodes
      · have hs : x ∉ s.nodes := fun hs => hd x hc x hs rfl
        rw [if_pos hc, unlink_of_notMem hs]
        have hp := ihc hnc hc
        simp only [nodes_node]
        refine .trans (.trans (.cons x List.perm_middle) (.swap y x _)) (.cons y ?_)
        rw [← List.append_assoc]
        exact hp.append_right s.nodes
      · have hs : x ∈ s.nodes := by
          simp only [nodes_node, List.mem_cons, List.mem_append] at h
          exact (h.resolve_left (Ne.symm hyx)).resolve_left hc
        rw [if_neg hc, unlink_of_notMem hc]
        have hp := ihs hns hs
        simp only [nodes_node]
        refine .trans (.trans (.cons x List.perm_middle) (.swap y x _)) (.cons y ?_)
        refine .trans (.cons x ?_) (.trans List.perm_middle.symm (hp.append_left c.nodes))
        rw [← List.append_assoc, ← List.append_assoc]
        exact List.perm_append_comm.append_right _

theorem unlink_subset [DecidableEq ν] {x y : ν} {t : Forest ν} (h : y ∈ (t.unlink x).nodes) :
    y ∈ t.nodes := by
  induction t with
  | nil => cases h
  | node z c s ihc ihs =>
    rw [unlink] at h
    split at h
    · exact List.mem_cons_of_mem _ (List.mem_append_right _ h)
    · simp only [nodes_node, List.mem_cons, List.mem_append] at h ⊢
      exact h.imp_right (Or.imp ihc ihs)

theorem Ordered.unlink [DecidableEq ν] [LE δ] {key : ν → δ} {x : ν} {t : Forest ν}
    (h : t.Ordered key) : (t.unlink x).Ordered key := by
  induction t with
  | nil => trivial
  | node y c s ihc ihs =>
    rw [Forest.unlink]
    split
    · exact h.2.2
    · exact ⟨fun z hz => h.1 z (unlink_subset hz), ihc h.2.1, ihs h.2.2⟩

theorem Ordered.childrenOf [DecidableEq ν] [LE δ] {key : ν → δ} {x : ν} {t : Forest ν}
    (h : t.Ordered key) : (t.childrenOf x).Ordered key := by
  induction t with
  | nil => trivial
  | node y c s ihc ihs =>
    rw [Forest.childrenOf]
    split
    · exact h.2.1
    · split
      · exact ihc h.2.1
      · exact ihs h.2.2

end Forest

/-- A nonempty heap. -/
structure Tree (ν : Type u) where
  root : ν
  children : Forest ν
  deriving DecidableEq, Repr

namespace Tree

def nodes (t : Tree ν) : List ν := t.root :: t.children.nodes

/-- Every tree is heap-ordered, so its root has the least key. -/
def Ordered [LE δ] (key : ν → δ) (t : Tree ν) : Prop :=
  (∀ y ∈ t.children.nodes, key t.root ≤ key y) ∧ t.children.Ordered key

variable [LinearOrder δ] {key : ν → δ}

theorem Ordered.root_le {t : Tree ν} (h : t.Ordered key) (hx : x ∈ t.nodes) :
    key t.root ≤ key x := by
  rcases List.mem_cons.1 hx with rfl | hx
  · exact le_refl _
  · exact h.1 x hx

/-- The root with the larger key becomes the first child of the other one. -/
def meld (key : ν → δ) (a b : Tree ν) : Tree ν :=
  if key b.root < key a.root then ⟨b.root, .node a.root a.children b.children⟩
  else ⟨a.root, .node b.root b.children a.children⟩

theorem nodes_meld (key : ν → δ) (a b : Tree ν) :
    (meld key a b).nodes.Perm (a.nodes ++ b.nodes) := by
  unfold meld
  split
  · exact (@List.perm_middle _ _ a.nodes _).symm
  · refine .cons _ ?_
    simp only [Forest.nodes_node, nodes]
    exact .trans (.cons _ List.perm_append_comm) List.perm_middle.symm

theorem Ordered.meld {a b : Tree ν} (ha : a.Ordered key) (hb : b.Ordered key) :
    (meld key a b).Ordered key := by
  unfold Tree.meld
  split
  · rename_i h
    refine ⟨fun y hy => ?_, ha.1, ha.2, hb.2⟩
    simp only [Forest.nodes_node, List.mem_cons, List.mem_append] at hy
    rcases hy with rfl | hy | hy
    · exact le_of_lt h
    · exact le_trans (le_of_lt h) (ha.1 y hy)
    · exact hb.1 y hy
  · rename_i h
    refine ⟨fun y hy => ?_, hb.1, hb.2, ha.2⟩
    simp only [Forest.nodes_node, List.mem_cons, List.mem_append] at hy
    rcases hy with rfl | hy | hy
    · exact le_of_not_gt h
    · exact le_trans (le_of_not_gt h) (hb.1 y hy)
    · exact ha.1 y hy

end Tree

variable [LinearOrder δ] {key : ν → δ}

/-- The first pass of a pairwise merge: neighbours are melded and stacked. -/
def pairUp (key : ν → δ) : Forest ν → List (Tree ν) → List (Tree ν)
  | .nil, stack => stack
  | .node a ca .nil, stack => ⟨a, ca⟩ :: stack
  | .node a ca (.node b cb s), stack => pairUp key s (Tree.meld key ⟨a, ca⟩ ⟨b, cb⟩ :: stack)

/-- The two-pass pairwise merge of a list of trees. -/
def mergePairs (key : ν → δ) (t : Forest ν) : Option (Tree ν) :=
  match pairUp key t [] with
  | [] => none
  | r :: stack => some (stack.foldl (Tree.meld key) r)

theorem nodes_pairUp (key : ν → δ) (t : Forest ν) (stack : List (Tree ν)) :
    ((pairUp key t stack).flatMap Tree.nodes).Perm (t.nodes ++ stack.flatMap Tree.nodes) := by
  induction t, stack using pairUp.induct key with
  | case1 stack => exact .refl _
  | case2 a ca stack =>
    simp only [pairUp, List.flatMap_cons, Tree.nodes, Forest.nodes_node, Forest.nodes_nil,
      List.append_nil]
    exact .refl _
  | case3 a ca b cb s stack ih =>
    rw [pairUp]
    refine ih.trans ?_
    rw [List.flatMap_cons, ← List.append_assoc]
    refine .append_right _ (.trans List.perm_append_comm ?_)
    refine .trans (.append_right _ (Tree.nodes_meld _ _ _)) ?_
    simp only [Tree.nodes, Forest.nodes_node, List.cons_append, List.append_assoc]
    exact .refl _

theorem length_pairUp_le (key : ν → δ) (t : Forest ν) :
    (pairUp key t []).length ≤ t.nodes.length := by
  have h := (nodes_pairUp key t []).length_eq
  rw [List.flatMap_nil, List.append_nil] at h
  rw [← h]
  generalize pairUp key t [] = stack
  induction stack with
  | nil => exact Nat.zero_le _
  | cons r stack ih =>
    simp only [List.flatMap_cons, List.length_append, List.length_cons, Tree.nodes]
    omega

theorem ordered_pairUp {t : Forest ν} {stack : List (Tree ν)} (ht : t.Ordered key)
    (hs : ∀ r ∈ stack, r.Ordered key) : ∀ r ∈ pairUp key t stack, r.Ordered key := by
  induction t, stack using pairUp.induct key with
  | case1 stack => exact hs
  | case2 a ca stack =>
    intro r hr
    rcases List.mem_cons.1 hr with rfl | hr
    · exact ⟨ht.1, ht.2.1⟩
    · exact hs r hr
  | case3 a ca b cb s stack ih =>
    rw [pairUp]
    obtain ⟨ha, hca, hb, hcb, hs'⟩ := ht
    refine ih hs' fun r hr => ?_
    rcases List.mem_cons.1 hr with rfl | hr
    · exact Tree.Ordered.meld ⟨ha, hca⟩ ⟨hb, hcb⟩
    · exact hs r hr

theorem nodes_foldl_meld (key : ν → δ) (r : Tree ν) (stack : List (Tree ν)) :
    (stack.foldl (Tree.meld key) r).nodes.Perm (r.nodes ++ stack.flatMap Tree.nodes) := by
  induction stack generalizing r with
  | nil => simp
  | cons t stack ih =>
    refine (ih _).trans ?_
    rw [List.flatMap_cons, ← List.append_assoc]
    exact (Tree.nodes_meld key r t).append_right _

theorem ordered_foldl_meld {r : Tree ν} {stack : List (Tree ν)} (hr : r.Ordered key)
    (hs : ∀ t ∈ stack, t.Ordered key) : (stack.foldl (Tree.meld key) r).Ordered key := by
  induction stack generalizing r with
  | nil => exact hr
  | cons t stack ih =>
    exact ih (hr.meld (hs t (by simp))) fun u hu => hs u (by simp [hu])

/-- The nodes of a heap that may be empty. -/
def nodesOf (t : Option (Tree ν)) : List ν := t.elim [] Tree.nodes

@[simp] theorem nodesOf_none : nodesOf (none : Option (Tree ν)) = [] := rfl

@[simp] theorem nodesOf_some (t : Tree ν) : nodesOf (some t) = t.root :: t.children.nodes := rfl

theorem nodes_mergePairs (key : ν → δ) (t : Forest ν) :
    (nodesOf (mergePairs key t)).Perm t.nodes := by
  have h := nodes_pairUp key t []
  rw [List.flatMap_nil, List.append_nil] at h
  unfold mergePairs
  split
  · rename_i he
    rw [he] at h
    exact h
  · rename_i r stack he
    rw [he] at h
    exact (nodes_foldl_meld key r stack).trans h

theorem ordered_mergePairs {t : Forest ν} (ht : t.Ordered key) (h : mergePairs key t = some r) :
    r.Ordered key := by
  have ho : ∀ r ∈ pairUp key t [], r.Ordered key := ordered_pairUp ht (by simp)
  unfold mergePairs at h
  split at h
  · cases h
  · rename_i q stack he
    cases h
    rw [he] at ho
    exact ordered_foldl_meld (ho q (by simp)) fun u hu => ho u (by simp [hu])

/-- A node below the root leaves; its children are merged and melded back. -/
def Tree.erase [DecidableEq ν] (key : ν → δ) (x : ν) (t : Tree ν) : Tree ν :=
  match mergePairs key (t.children.childrenOf x) with
  | none => ⟨t.root, t.children.unlink x⟩
  | some u => Tree.meld key ⟨t.root, t.children.unlink x⟩ u

theorem Tree.nodes_erase [DecidableEq ν] (key : ν → δ) {t : Tree ν} (hn : t.nodes.Nodup)
    (hx : x ∈ t.children.nodes) : (x :: (t.erase key x).nodes).Perm t.nodes := by
  have hc := nodes_mergePairs key (t.children.childrenOf x)
  have hu := (Forest.nodes_unlink (List.nodup_cons.1 hn).2 hx).cons t.root
  refine .trans ?_ hu
  unfold Tree.erase
  split
  · rename_i he
    rw [he, nodesOf_none, List.nil_perm] at hc
    rw [hc]
    exact .swap ..
  · rename_i u he
    rw [he] at hc
    refine .trans ((Tree.nodes_meld _ _ _).cons x) (.trans (.swap ..) ?_)
    exact ((List.perm_append_comm.trans (hc.append_right _)).cons x).cons t.root

theorem Tree.Ordered.erase [DecidableEq ν] {t : Tree ν} (h : t.Ordered key) :
    (t.erase key x).Ordered key := by
  have ht : (⟨t.root, t.children.unlink x⟩ : Tree ν).Ordered key :=
    ⟨fun y hy => h.1 y (Forest.unlink_subset hy), h.2.unlink⟩
  unfold Tree.erase
  split
  · exact ht
  · rename_i u he
    exact ht.meld (ordered_mergePairs h.2.childrenOf he)

end PairingHeap
