import Mathlib.Logic.Function.Basic
import Mathlib.Data.List.Basic

/-- A block of memory and the allocator that it was obtained from. -/
structure Heap.Block (A : Type u) (β : Type v) where
  owner : A
  cells : List β

/-- The live blocks by their addresses. -/
def Heap (A : Type u) (β : Type v) := Nat → Option (Heap.Block A β)

namespace Heap
open Function (update)
set_option autoImplicit true

def empty : Heap A β := fun _ => none

/-- The cells from `off` on replaced by `bs`. -/
def splice (cells : List β) (off : Nat) (bs : List β) : List β :=
  cells.take off ++ bs ++ cells.drop (off + bs.length)

theorem length_splice (h : off + bs.length ≤ cells.length) :
    (splice cells off bs).length = cells.length := by
  simp only [splice, List.length_append, List.length_take, List.length_drop]
  omega

theorem take_splice_zero : (splice cells 0 bs).take bs.length = bs := by
  simp [splice]

theorem getElem?_splice (h : off + bs.length ≤ cells.length) (i : Nat) :
    (splice cells off bs)[i]? =
      if i < off then cells[i]? else if i < off + bs.length then bs[i - off]? else cells[i]? := by
  have hl : (cells.take off).length = off := by simp; omega
  rw [splice, List.append_assoc, List.getElem?_append, hl]
  split
  · next h₁ => rw [List.getElem?_take_of_lt h₁]
  · rw [List.getElem?_append, List.getElem?_drop]
    by_cases h₂ : i < off + bs.length
    · rw [if_pos (by omega), if_pos h₂]
    · rw [if_neg (by omega), if_neg h₂]
      congr 1
      omega

/-- Bytes before the spliced ones. -/
theorem take_drop_splice (h : off + bs.length ≤ cells.length) (hm : i + m ≤ off) :
    ((splice cells off bs).drop i).take m = (cells.drop i).take m := by
  refine List.ext_getElem? fun j => ?_
  simp only [List.getElem?_take, List.getElem?_drop, getElem?_splice h]
  split
  · rw [if_pos (by omega)]
  · rfl

/-- Bytes behind the spliced ones. -/
theorem drop_splice (h : off + bs.length ≤ cells.length) (hi : off + bs.length ≤ i) :
    (splice cells off bs).drop i = cells.drop i := by
  refine List.ext_getElem? fun j => ?_
  simp only [List.getElem?_drop, getElem?_splice h]
  rw [if_neg (by omega), if_neg (by omega)]

/-- A part that contains the spliced bytes. -/
theorem take_drop_splice_inside (h : off + k + bs.length ≤ cells.length)
    (hm : k + bs.length ≤ m) (hc : off + m ≤ cells.length) :
    ((splice cells (off + k) bs).drop off).take m = splice ((cells.drop off).take m) k bs := by
  have hl : k + bs.length ≤ ((cells.drop off).take m).length := by
    simp only [List.length_take, List.length_drop]
    omega
  refine List.ext_getElem? fun j => ?_
  simp only [List.getElem?_take, List.getElem?_drop, getElem?_splice h, getElem?_splice hl]
  by_cases h₁ : j < k
  · rw [if_pos h₁, if_pos (by omega : off + j < off + k)]
  · rw [if_neg h₁, if_neg (by omega : ¬ off + j < off + k)]
    by_cases h₂ : j < k + bs.length
    · rw [if_pos h₂, if_pos (by omega), if_pos (by omega)]
      congr 1
      omega
    · rw [if_neg h₂, if_neg (by omega : ¬ off + j < off + k + bs.length)]

/-- A block of fresh cells at an address. -/
def alloc (h : Heap A β) (p : Nat) (a : A) (cells : List β) : Heap A β :=
  update h p (some ⟨a, cells⟩)

def free (h : Heap A β) (p : Nat) : Heap A β := update h p none

/-- A block goes back to its allocator with its own length, everything else is undefined. -/
def dealloc [DecidableEq A] (h : Heap A β) (a : A) (p n : Nat) : Option (Heap A β) :=
  (h p).bind fun b => if b.owner = a ∧ b.cells.length = n then some (h.free p) else none

def load (h : Heap A β) (p off n : Nat) : Option (List β) :=
  (h p).bind fun b =>
    if off + n ≤ b.cells.length then some ((b.cells.drop off).take n) else none

def store (h : Heap A β) (p off : Nat) (bs : List β) : Option (Heap A β) :=
  (h p).bind fun b =>
    if off + bs.length ≤ b.cells.length then
      some (h.alloc p b.owner (splice b.cells off bs))
    else none

/-- `n` cells copied through a temporary array, as `std::memmove` does. -/
def copy (h : Heap A β) (dst doff src soff n : Nat) : Option (Heap A β) :=
  (h.load src soff n).bind fun bs => h.store dst doff bs

variable {h : Heap A β}

@[simp] theorem alloc_self : (h.alloc p a cells) p = some ⟨a, cells⟩ := Function.update_self ..

theorem alloc_of_ne (hq : q ≠ p) : (h.alloc p a cells) q = h q := Function.update_of_ne hq ..

@[simp] theorem free_self : (h.free p) p = none := Function.update_self ..

theorem free_of_ne (hq : q ≠ p) : (h.free p) q = h q := Function.update_of_ne hq ..

theorem dealloc_eq [DecidableEq A] (hp : h p = some ⟨a, cells⟩) (hn : cells.length = n) :
    h.dealloc a p n = some (h.free p) := by
  simp [dealloc, hp, hn]

theorem load_eq (hp : h p = some ⟨a, cells⟩) (hn : off + n ≤ cells.length) :
    h.load p off n = some ((cells.drop off).take n) := by
  simp [load, hp, hn]

theorem store_eq (hp : h p = some ⟨a, cells⟩) (hn : off + bs.length ≤ cells.length) :
    h.store p off bs = some (h.alloc p a (splice cells off bs)) := by
  simp [store, hp, hn]

theorem copy_eq (hs : h src = some ⟨a, cells⟩) (hn : soff + n ≤ cells.length)
    (hd : h dst = some ⟨b, old⟩) (hm : doff + n ≤ old.length) :
    h.copy dst doff src soff n =
      some (h.alloc dst b (splice old doff ((cells.drop soff).take n))) := by
  have hl : ((cells.drop soff).take n).length = n := by
    simp only [List.length_take, List.length_drop]
    omega
  rw [copy, load_eq hs hn, Option.bind_some, store_eq hd (by omega)]

theorem alloc_alloc : (h.alloc p a cells).alloc p b cells' = h.alloc p b cells' :=
  Function.update_idem ..

end Heap
