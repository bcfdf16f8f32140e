import Mathlib.Logic.Function.Basic
import Mathlib.Logic.Relation

namespace Linked
set_option autoImplicit true

/-- The links that start at `o` run through the listed nodes and end there. -/
def Chain (next : ι → Option ι) : List ι → Option ι → Prop
  | [], o => o = none
  | x :: l, o => o = some x ∧ Chain next l (next x)

/-- The node is found by following links from `o`. -/
def Reaches (next : ι → Option ι) (o : Option ι) (x : ι) : Prop :=
  ∃ y, o = some y ∧ Relation.ReflTransGen (fun a b => next a = some b) y x

theorem Chain.head? (h : Chain next l o) : o = l.head? := by
  cases l with
  | nil => exact h
  | cons x l => exact h.1

theorem Chain.frame (h : Chain next l o) (hn : ∀ x ∈ l, next' x = next x) : Chain next' l o := by
  induction l generalizing o with
  | nil => exact h
  | cons x l ih =>
    refine ⟨h.1, ?_⟩
    rw [hn x List.mem_cons_self]
    exact ih h.2 fun y hy => hn y (List.mem_cons_of_mem _ hy)

theorem Chain.update [DecidableEq ι] {next : ι → Option ι} {x : ι} (h : Chain next l o) (hx : x ∉ l)
    (v : Option ι) :
    Chain (Function.update next x v) l o :=
  h.frame fun y hy => Function.update_of_ne (fun he : y = x => hx (he ▸ hy)) ..

theorem Chain.push [DecidableEq ι] {next : ι → Option ι} {x : ι} (h : Chain next l o) (hx : x ∉ l) :
    Chain (Function.update next x o) (x :: l) (some x) := by
  refine ⟨rfl, ?_⟩
  rw [Function.update_self]
  exact h.update hx o

theorem Chain.cons (h : Chain next l (next x)) : Chain next (x :: l) (some x) := ⟨rfl, h⟩

theorem Chain.of_some (h : Chain next l (some x)) : ∃ l', l = x :: l' ∧ Chain next l' (next x) := by
  cases l with
  | nil => cases h
  | cons y l =>
    obtain ⟨hy, hl⟩ := h
    obtain rfl := Option.some.inj hy
    exact ⟨l, rfl, hl⟩

theorem Chain.of_none (h : Chain next l none) : l = [] := by
  cases l with
  | nil => rfl
  | cons y l => cases h.1

theorem Chain.reaches (h : Chain next l o) (hx : x ∈ l) : Reaches next o x := by
  induction l generalizing o with
  | nil => cases hx
  | cons y l ih =>
    refine ⟨y, h.1, ?_⟩
    rcases List.mem_cons.1 hx with rfl | hx
    · exact .refl
    · obtain ⟨z, hz, hzx⟩ := ih h.2 hx
      exact .head hz hzx

theorem not_reaches_none (next : ι → Option ι) (x : ι) : ¬ Reaches next none x := by
  rintro ⟨y, hy, -⟩
  cases hy

instance Chain.decidable [DecidableEq ι] (next : ι → Option ι) :
    (l : List ι) → (o : Option ι) → Decidable (Chain next l o)
  | [], o => inferInstanceAs (Decidable (o = none))
  | x :: l, o =>
    have := Chain.decidable next l (next x)
    inferInstanceAs (Decidable (o = some x ∧ Chain next l (next x)))

/-- The links that start at `o` run through the listed nodes and then lead to `e`. -/
def Path (next : ι → Option ι) : List ι → Option ι → Option ι → Prop
  | [], o, e => o = e
  | x :: l, o, e => o = some x ∧ Path next l (next x) e

theorem Path.frame (h : Path next l o e) (hn : ∀ x ∈ l, next' x = next x) : Path next' l o e := by
  induction l generalizing o with
  | nil => exact h
  | cons x l ih =>
    refine ⟨h.1, ?_⟩
    rw [hn x List.mem_cons_self]
    exact ih h.2 fun y hy => hn y (List.mem_cons_of_mem _ hy)

theorem Path.chain (h : Path next a o e) (hb : Chain next b e) : Chain next (a ++ b) o := by
  induction a generalizing o with
  | nil =>
    cases h
    exact hb
  | cons x a ih => exact ⟨h.1, ih h.2⟩

theorem Chain.path (h : Chain next (a ++ x :: b) o) : Path next a o (some x) := by
  induction a generalizing o with
  | nil => exact h.1
  | cons y a ih => exact ⟨h.1, ih h.2⟩

/-- `y` comes right after `x` in the list. -/
def Adj : List ι → ι → ι → Prop
  | [], _, _ => False
  | z :: l, x, y => (z = x ∧ l.head? = some y) ∨ Adj l x y

theorem adj_append {a b : List ι} : Adj (a ++ b) x y ↔
    Adj a x y ∨ (a.getLast? = some x ∧ b.head? = some y) ∨ Adj b x y := by
  induction a with
  | nil => simp [Adj]
  | cons z a ih =>
    rw [List.cons_append, Adj, ih, Adj]
    cases a with
    | nil => simp [Adj]
    | cons w a => simp [or_assoc]

theorem Adj.mem {l : List ι} (h : Adj l x y) : x ∈ l ∧ y ∈ l := by
  induction l with
  | nil => cases h
  | cons z l ih =>
    rcases h with ⟨rfl, hy⟩ | h
    · exact ⟨List.mem_cons_self, List.mem_cons_of_mem _ (List.mem_of_mem_head? hy)⟩
    · exact ⟨List.mem_cons_of_mem _ (ih h).1, List.mem_cons_of_mem _ (ih h).2⟩

/-- Nothing comes after the last node. -/
theorem not_adj_last {l : List ι} (hn : l.Nodup) (hl : l.getLast? = some x) : ¬ Adj l x y := by
  induction l with
  | nil => exact id
  | cons z l ih =>
    obtain ⟨hz, hn⟩ := List.nodup_cons.1 hn
    cases l with
    | nil => simp [Adj]
    | cons w l =>
      rw [List.getLast?_cons_cons] at hl
      rintro (⟨rfl, -⟩ | h)
      · exact hz (List.mem_of_getLast? hl)
      · exact ih hn hl h

/-- Nothing comes before the first node. -/
theorem not_adj_head {l : List ι} (hn : l.Nodup) (hl : l.head? = some y) : ¬ Adj l x y := by
  cases l with
  | nil => exact id
  | cons z l =>
    obtain rfl := Option.some.inj hl
    obtain ⟨hz, -⟩ := List.nodup_cons.1 hn
    rintro (⟨-, h⟩ | h)
    · exact hz (List.mem_of_mem_head? h)
    · exact hz h.mem.2

/-- The links of a doubly linked list. A node outside of the list has null links. -/
structure Doubly (prev next : ι → Option ι) (head tail : Option ι) (l : List ι) : Prop where
  nodup : l.Nodup
  head : head = l.head?
  tail : tail = l.getLast?
  next : ∀ x y, next x = some y ↔ Adj l x y
  prev : ∀ x y, prev y = some x ↔ Adj l x y

theorem Doubly.nil : Doubly (fun _ : ι => none) (fun _ => none) none none [] where
  nodup := .nil
  head := rfl
  tail := rfl
  next := by simp [Adj]
  prev := by simp [Adj]

variable {prev next : ι → Option ι} {head tail : Option ι} {l : List ι}

theorem Doubly.prev_none (h : Doubly prev next head tail l) (hx : x ∉ l) : prev x = none := by
  cases hn : prev x with
  | none => rfl
  | some y => exact absurd ((h.prev y x).1 hn).mem.2 hx

/-- Null at one end means null at the other. -/
theorem Doubly.ends (h : Doubly prev next head tail l) : head = none ↔ tail = none := by
  rw [h.head, h.tail, List.head?_eq_none_iff, List.getLast?_eq_none_iff]

theorem Doubly.mem_of_reaches (h : Doubly prev next head tail l) (hx : Reaches next head x) :
    x ∈ l := by
  obtain ⟨y, hy, hr⟩ := hx
  induction hr with
  | refl => exact List.mem_of_mem_head? (h.head.symm.trans hy)
  | tail _ hn _ => exact ((h.next _ _).1 hn).mem.2

/-- In the list `a ++ x :: b` the links of `x` lead to the end of `a` and the start of `b`. -/
theorem Doubly.split {a b : List ι} (h : Doubly prev next head tail (a ++ x :: b)) :
    prev x = a.getLast? ∧ next x = b.head? := by
  have hn := h.nodup
  rw [List.nodup_append, List.nodup_cons] at hn
  obtain ⟨-, ⟨hb, -⟩, hd⟩ := hn
  have ha : x ∉ a := fun hx => hd x hx x List.mem_cons_self rfl
  have hadj : ∀ u y, (u = x ∨ y = x) → ¬ Adj a u y ∧ ¬ Adj b u y := by
    rintro u y (rfl | rfl)
    · exact ⟨fun h => ha h.mem.1, fun h => hb h.mem.1⟩
    · exact ⟨fun h => ha h.mem.2, fun h => hb h.mem.2⟩
  constructor
  · refine Option.ext fun y => ?_
    rw [h.prev y x, adj_append, Adj]
    have := hadj y x (.inr rfl)
    have := @List.mem_of_mem_head? ι b
    have : b.head? ≠ some x := fun h => hb (List.mem_of_mem_head? h)
    simp [*]
  · refine Option.ext fun y => ?_
    rw [h.next x y, adj_append, Adj]
    have := hadj x y (.inl rfl)
    have : a.getLast? ≠ some x := fun h => ha (List.mem_of_getLast? h)
    simp [*]

variable {prev' next' : ι → Option ι} {head' tail' : Option ι}

/-- Linking a new node behind the last one. -/
theorem Doubly.push [DecidableEq ι] (h : Doubly prev next head tail l) (hx : x ∉ l)
    (hp : ∀ y, prev' y = if y = x then tail else prev y)
    (hn : ∀ y, next' y = if tail = some y then some x else if y = x then none else next y)
    (hh : head' = if tail = none then some x else head) :
    Doubly prev' next' head' (some x) (l ++ [x]) where
  nodup := List.nodup_append.2 ⟨h.nodup, by simp, by grind⟩
  head := by
    rw [hh, h.tail, h.head]
    cases l <;> simp
  tail := by simp
  next u y := by
    have hu := h.next u y
    have hm : l.getLast? = some u → u ∈ l := List.mem_of_getLast?
    have hlast := @not_adj_last ι u y l h.nodup
    have hadj := @Adj.mem ι u y l
    rw [hn, adj_append, h.tail]
    simp only [Adj, List.head?_cons, List.head?_nil]
    grind
  prev u y := by
    have hu := h.prev u y
    have hadj := @Adj.mem ι u y l
    rw [hp, adj_append, h.tail]
    simp only [Adj, List.head?_cons, List.head?_nil]
    grind

/-- Linking a new node before the first one. -/
theorem Doubly.cons [DecidableEq ι] (h : Doubly prev next head tail l) (hx : x ∉ l)
    (hp : ∀ y, prev' y = if head = some y then some x else if y = x then none else prev y)
    (hn : ∀ y, next' y = if y = x then head else next y)
    (ht : tail' = if tail = none then some x else tail) :
    Doubly prev' next' (some x) tail' (x :: l) where
  nodup := List.nodup_cons.2 ⟨hx, h.nodup⟩
  head := rfl
  tail := by
    rw [ht, h.tail]
    cases l with
    | nil => rfl
    | cons y l => simp [List.getLast?_cons]
  next u y := by
    have hu := h.next u y
    have hadj := @Adj.mem ι u y l
    rw [hn, Adj, h.head]
    grind
  prev u y := by
    have hu := h.prev u y
    have hm : l.head? = some y → y ∈ l := List.mem_of_mem_head?
    have hfirst := @not_adj_head ι y u l h.nodup
    have hadj := @Adj.mem ι u y l
    rw [hp, Adj, h.head]
    grind

/-- Cutting out a node links its neighbours with each other. -/
theorem Doubly.erase [DecidableEq ι] {a b : List ι} (h : Doubly prev next head tail (a ++ x :: b))
    (hp : ∀ y, prev' y = if y = x then none else if b.head? = some y then a.getLast? else prev y)
    (hn : ∀ y, next' y = if y = x then none else if a.getLast? = some y then b.head? else next y)
    (hh : head' = if a = [] then b.head? else head)
    (ht : tail' = if b = [] then a.getLast? else tail) :
    Doubly prev' next' head' tail' (a ++ b) := by
  have hnd := h.nodup
  rw [List.nodup_append, List.nodup_cons] at hnd
  obtain ⟨ha, ⟨hxb, hb⟩, hd⟩ := hnd
  have hxa : x ∉ a := fun hx => hd x hx x List.mem_cons_self rfl
  have hab : ∀ y ∈ a, y ∉ b := fun y hy hyb => hd y hy y (List.mem_cons_of_mem _ hyb) rfl
  have hla : ∀ y, a.getLast? = some y → y ∈ a := fun y => List.mem_of_getLast?
  have hhb : ∀ y, b.head? = some y → y ∈ b := fun y => List.mem_of_mem_head?
  constructor
  case nodup =>
    exact List.nodup_append.2 ⟨ha, hb, fun y hy z hz => hd y hy z (List.mem_cons_of_mem _ hz)⟩
  case head =>
    rw [hh, h.head]
    cases a <;> simp
  case tail =>
    rw [ht, h.tail]
    cases b <;> simp
  case next =>
    intro u y
    have hu := h.next u y
    have hua := @Adj.mem ι u y a
    have hub := @Adj.mem ι u y b
    have hlast := @not_adj_last ι u y a ha
    rw [adj_append] at hu
    rw [hn, adj_append]
    simp only [Adj, List.head?_cons] at hu
    grind
  case prev =>
    intro u y
    have hu := h.prev u y
    have hua := @Adj.mem ι u y a
    have hub := @Adj.mem ι u y b
    have hfirst := @not_adj_head ι y u b hb
    rw [adj_append] at hu
    rw [hp, adj_append]
    simp only [Adj, List.head?_cons] at hu
    grind

end Linked
