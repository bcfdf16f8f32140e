import Coio.FlatBuffer.Assignment
import Mathlib.Logic.Equiv.Basic

namespace Coio.FlatBuffer
open Function (update)
set_option autoImplicit true

/-- The purpose of a buffer: bytes to read, and after them bytes that can be committed. -/
structure Queue where
  readable : List UInt8 := []
  window : List UInt8 := []

/-- The effect of an action on the bytes of the buffers. What the bytes of a new window are is left
open, as is whether a reallocation keeps the window. -/
inductive Queue.Step [DecidableEq ι] :
    Act ι A → Option Exception → (ι → Option Queue) → (ι → Option Queue) → Prop
  | throws : Step a (some e) f f
  | construct : f i = none → Step (.construct i alloc m) none f (update f i (some {}))
  | copyConstruct : f i = none → f j = some q →
      Step (.copyConstruct i j o) none f (update f i (some ⟨q.readable, []⟩))
  | moveConstruct : f i = none → f j = some q →
      Step (.moveConstruct i j) none f (update (update f i (some q)) j (some {}))
  | copyAssign_self : Step (.copyAssign i i o) none f f
  | copyAssign : i ≠ j → f i = some p → f j = some q →
      Step (.copyAssign i j o) none f (update f i (some ⟨q.readable, []⟩))
  | moveAssign_self : Step (.moveAssign i i o) none f f
  | moveAssign : i ≠ j → f i = some p → f j = some q → W = q.window ∨ W = [] →
      Step (.moveAssign i j o) none f (update (update f i (some ⟨q.readable, W⟩)) j (some {}))
  | swap : f i = some p → f j = some q →
      Step (.swap i j) none f (update (update f i (some q)) j (some p))
  | destruct : f i = some q → Step (.destruct i) none f (update f i none)
  | prepare_zero : Step (.prepare i 0 o) none f f
  | prepare : n ≠ 0 → f i = some q → W.length = n →
      Step (.prepare i n o) none f (update f i (some ⟨q.readable, W⟩))
  | write : f i = some q → k + bytes.length ≤ q.window.length →
      Step (.write i k bytes) none f
        (update f i (some ⟨q.readable, Heap.splice q.window k bytes⟩))
  | commit : f i = some q → Step (.commit i n) none f
      (update f i (some ⟨q.readable ++ q.window.take n, q.window.drop n⟩))
  | consume : f i = some q →
      Step (.consume i n) none f (update f i (some ⟨q.readable.drop n, q.window⟩))
  | clear : f i = some q → Step (.clear i) none f (update f i (some {}))
  | reserve : f i = some q → W = q.window ∨ W = [] →
      Step (.reserve i n o) none f (update f i (some ⟨q.readable, W⟩))
  | shrink_to_fit : f i = some q → W = q.window ∨ W = [] →
      Step (.shrink_to_fit i o) none f (update f i (some ⟨q.readable, W⟩))

def queue (h : Memory A) (b : Buffer A) : Queue := ⟨readable h b, window h b⟩

def World.queues (w : World ι A) (i : ι) : Option Queue := (w.objects i).map (queue w.heap)

/-- What the program owes an action: the objects exist or do not exist yet, the arguments are of
type `std::size_t`, the bytes are written into the prepared span, and buffers are swapped whose
allocators are equal or propagate. -/
def World.Admits (T : Traits A) (w : World ι A) : Act ι A → Prop
  | .construct i _ m => w.objects i = none ∧ m < Word.modulus
  | .copyConstruct i j o =>
    w.objects i = none ∧ (∃ c, w.objects j = some c) ∧ o.Fits w.heap
  | .moveConstruct i j => w.objects i = none ∧ ∃ c, w.objects j = some c
  | .copyAssign i j o | .moveAssign i j o =>
    (∃ b, w.objects i = some b) ∧ (∃ c, w.objects j = some c) ∧ o.Fits w.heap
  | .swap i j => ∃ b c, w.objects i = some b ∧ w.objects j = some c ∧
      (T.propagate_on_container_swap ∨ b.alloc_ = c.alloc_)
  | .write i k bytes =>
    ∃ b, w.objects i = some b ∧ bytes ≠ [] ∧ k + bytes.length ≤ b.last_ - b.out_
  | .prepare i n o | .reserve i n o =>
    (∃ b, w.objects i = some b) ∧ n < Word.modulus ∧ o.Fits w.heap
  | .shrink_to_fit i o => (∃ b, w.objects i = some b) ∧ o.Fits w.heap
  | .commit i n | .consume i n => (∃ b, w.objects i = some b) ∧ n < Word.modulus
  | .destruct i | .clear i => ∃ b, w.objects i = some b

/-- A `prepare` that succeeds asks for no more than `max_size()` allows. -/
def World.Bounded (w : World ι A) : Act ι A → Option Exception → Prop
  | .prepare i n _, none => ∀ b, w.objects i = some b → b.size + n ≤ b.max_
  | _, _ => True

/-- Every buffer is valid, no two share a block, and every block belongs to a buffer. -/
structure World.Valid (w : World ι A) : Prop where
  valid : ∀ i b, w.objects i = some b → FlatBuffer.Valid w.heap b
  within : ∀ i b, w.objects i = some b → Within b
  apart : ∀ i j b c, w.objects i = some b → w.objects j = some c → i ≠ j → Apart b c
  owned : ∀ p k, w.heap p = some k → ∃ i b, w.objects i = some b ∧ b.data_ = some p

theorem World.Valid.empty : (World.Valid (ι := ι) (A := A) {}) where
  valid i b hb := by cases hb
  within i b hb := by cases hb
  apart i j b c hb := by cases hb
  owned p k hp := by cases hp

variable {w : World ι A} {T : Traits A} {b other : Buffer A}

/-- The place of a buffer, or a free place for a buffer without a block. -/
def World.Slot (w : World ι A) (i : ι) (b : Buffer A) : Prop :=
  w.objects i = some b ∨ w.objects i = none ∧ b.data_ = none

theorem World.Slot.apart (hi : w.Slot i b) (hw : w.Valid) (hj : w.objects j = some c)
    (hij : j ≠ i) : Apart c b := by
  rcases hi with hi | ⟨_, hd⟩
  · exact hw.apart j i c b hj hi hij
  · intro p _ hb
    rw [hd] at hb
    cases hb

/-- The other buffers keep their blocks. -/
theorem World.Slot.frame (hi : w.Slot i b) (hw : w.Valid) (hs : Safe w.heap b r)
    (hj : w.objects j = some c) (hij : j ≠ i) (hp : c.data_ = some p) : r.heap p = w.heap p := by
  have hb : b.data_ ≠ some p := hi.apart hw hj hij p hp
  refine hs.frame p hb fun hr => ?_
  rcases hs.fresh with he | hf
  · exact hb (he ▸ hr)
  · exact (hw.valid j c hj).ne_fresh (hf p hr) hp

/-- A world with the same blocks at other places. -/
theorem World.Valid.relabel {w' : World ι A} (hw : w.Valid) (hh : w'.heap = w.heap) (σ : ι → ι)
    (hv : ∀ k c, w'.objects k = some c → FlatBuffer.Valid w.heap c ∧ Within c)
    (hf : ∀ k c p, w'.objects k = some c → c.data_ = some p →
      ∃ d, w.objects (σ k) = some d ∧ d.data_ = some p)
    (hσ : ∀ k l c d p, w'.objects k = some c → w'.objects l = some d → c.data_ = some p →
      d.data_ = some p → σ k = σ l → k = l)
    (hb : ∀ l d p, w.objects l = some d → d.data_ = some p →
      ∃ k c, w'.objects k = some c ∧ c.data_ = some p) : w'.Valid where
  valid k c hk := hh ▸ (hv k c hk).1
  within k c hk := (hv k c hk).2
  apart k l c d hk hl hkl p hp hd := by
    obtain ⟨c', hc', hp'⟩ := hf k c p hk hp
    obtain ⟨d', hd', hq'⟩ := hf l d p hl hd
    have hne : σ k ≠ σ l := fun he => hkl (hσ k l c d p hk hl hp hd he)
    exact hw.apart _ _ c' d' hc' hd' hne p hp' hq'
  owned p k hp := by
    rw [hh] at hp
    obtain ⟨l, d, hl, hd⟩ := hw.owned p k hp
    exact hb l d p hl hd

variable [DecidableEq ι]

theorem World.Slot.put_valid (hi : w.Slot i b) (hw : w.Valid) (hs : Safe w.heap b r) :
    (w.put i r).world.Valid where
  valid j c hj := by
    by_cases hij : j = i
    · subst hij
      simp only [World.put, Function.update_self, Option.some.injEq] at hj
      exact hj ▸ hs.valid
    · simp only [World.put, Function.update_of_ne hij] at hj
      exact (hw.valid j c hj).frame fun p hp => hi.frame hw hs hj hij hp
  within j c hj := by
    by_cases hij : j = i
    · subst hij
      simp only [World.put, Function.update_self, Option.some.injEq] at hj
      exact hj ▸ hs.within
    · simp only [World.put, Function.update_of_ne hij] at hj
      exact hw.within j c hj
  apart j k c d hj hk hjk := by
    have hnew : ∀ l e, w.objects l = some e → l ≠ i → Apart e r.buffer := by
      intro l e hl hli p hp hr
      rcases hs.fresh with he | hf
      · exact hi.apart hw hl hli p hp (he ▸ hr)
      · exact (hw.valid l e hl).ne_fresh (hf p hr) hp
    by_cases hij : j = i
    · subst hij
      simp only [World.put, Function.update_self, Option.some.injEq,
        Function.update_of_ne (Ne.symm hjk)] at hj hk
      subst hj
      exact fun p hp hd => hnew k d hk (Ne.symm hjk) p hd hp
    · by_cases hik : k = i
      · subst hik
        simp only [World.put, Function.update_self, Option.some.injEq,
          Function.update_of_ne hij] at hj hk
        subst hk
        exact hnew j c hj hij
      · simp only [World.put, Function.update_of_ne hij, Function.update_of_ne hik] at hj hk
        exact hw.apart j k c d hj hk hjk
  owned p k hp := by
    by_cases hr : r.buffer.data_ = some p
    · exact ⟨i, r.buffer, Function.update_self .., hr⟩
    by_cases hb : b.data_ = some p
    · have hn := hs.freed p hb hr
      rw [show (w.put i r).world.heap p = r.heap p from rfl, hn] at hp
      cases hp
    · rw [show (w.put i r).world.heap p = r.heap p from rfl, hs.frame p hb hr] at hp
      obtain ⟨j, c, hj, hd⟩ := hw.owned p k hp
      have hij : j ≠ i := by
        rintro rfl
        rcases hi with hi | ⟨hi, _⟩
        · rw [hi] at hj
          cases hj
          exact hb hd
        · rw [hi] at hj
          cases hj
      exact ⟨j, c, (Function.update_of_ne hij ..).trans hj, hd⟩

theorem World.Slot.put_queues (hi : w.Slot i b) (hw : w.Valid) (hs : Safe w.heap b r) :
    (w.put i r).world.queues = update w.queues i (some (queue r.heap r.buffer)) := by
  funext j
  by_cases hij : j = i
  · subst hij
    simp only [World.queues, World.put, Function.update_self, Option.map_some]
  · rw [Function.update_of_ne hij]
    simp only [World.queues, World.put, Function.update_of_ne hij]
    cases hj : w.objects j with
    | none => rfl
    | some c =>
      have hf : ∀ p, c.data_ = some p → r.heap p = w.heap p := fun p hp =>
        hi.frame hw hs hj hij hp
      simp only [Option.map_some, queue, readable_frame hf, window_frame hf]

/-- A buffer without a block, or a free place, takes the block of another buffer over. -/
theorem World.Valid.steal (hw : w.Valid) (hi : ∀ b, w.objects i = some b → b.data_ = none)
    (hj : w.objects j = some other) (hij : i ≠ j) :
    World.Valid { w with
      objects := update (update w.objects i (some other)) j (some (reset other)) } := by
  have hnew : ∀ k c, update (update w.objects i (some other)) j (some (reset other)) k = some c →
      k = j ∧ c = reset other ∨ k = i ∧ c = other ∨ k ≠ i ∧ k ≠ j ∧ w.objects k = some c := by
    intro k c hk
    simp only [Function.update_apply] at hk
    split at hk
    · next h =>
      cases hk
      exact .inl ⟨h, rfl⟩
    · next h =>
      split at hk
      · next h' =>
        cases hk
        exact .inr (.inl ⟨h', rfl⟩)
      · next h' => exact .inr (.inr ⟨h', h, hk⟩)
  refine hw.relabel rfl (fun k => if k = i then j else k) ?_ ?_ ?_ ?_
  · intro k c hk
    rcases hnew k c hk with ⟨rfl, rfl⟩ | ⟨rfl, rfl⟩ | ⟨_, _, hc⟩
    · exact ⟨(hw.valid _ _ hj).reset, Nat.zero_le _⟩
    · exact ⟨hw.valid _ _ hj, hw.within _ _ hj⟩
    · exact ⟨hw.valid _ _ hc, hw.within _ _ hc⟩
  · intro k c p hk hp
    rcases hnew k c hk with ⟨rfl, rfl⟩ | ⟨rfl, rfl⟩ | ⟨hki, _, hc⟩
    · cases hp
    · exact ⟨_, by rw [if_pos rfl]; exact hj, hp⟩
    · exact ⟨_, by rw [if_neg hki]; exact hc, hp⟩
  · intro k l c d p hk hl hp hd he
    rcases hnew k c hk with ⟨rfl, rfl⟩ | ⟨rfl, rfl⟩ | ⟨hki, hkj, hc⟩
    · cases hp
    · rcases hnew l d hl with ⟨rfl, rfl⟩ | ⟨rfl, rfl⟩ | ⟨hli, hlj, hc⟩
      · cases hd
      · rfl
      · rw [if_pos rfl, if_neg hli] at he
        exact absurd he.symm hlj
    · rcases hnew l d hl with ⟨rfl, rfl⟩ | ⟨rfl, rfl⟩ | ⟨hli, hlj, hc⟩
      · cases hd
      · rw [if_neg hki, if_pos rfl] at he
        exact absurd he hkj
      · rwa [if_neg hki, if_neg hli] at he
  · intro l d p hl hd
    by_cases hlj : l = j
    · subst hlj
      rw [hj] at hl
      cases hl
      exact ⟨i, other, by simp [hij], hd⟩
    · have hli : l ≠ i := by
        rintro rfl
        rw [hi d hl] at hd
        cases hd
      exact ⟨l, d, by simp [hlj, hli, hl], hd⟩

theorem World.Valid.exchange (hw : w.Valid) (hi : w.objects i = some b)
    (hj : w.objects j = some other) :
    World.Valid { w with objects := update (update w.objects i (some other)) j (some b) } := by
  have hnew : update (update w.objects i (some other)) j (some b) =
      w.objects ∘ Equiv.swap i j := by
    funext k
    rw [Function.comp_apply, Equiv.swap_apply_def]
    by_cases hkj : k = j
    · subst hkj
      rw [Function.update_self, if_pos rfl]
      split
      · next h => rw [h, hi]
      · exact hi.symm
    · rw [Function.update_of_ne hkj, if_neg hkj]
      by_cases hki : k = i
      · rw [hki, Function.update_self, if_pos rfl, hj]
      · rw [Function.update_of_ne hki, if_neg hki]
  rw [hnew]
  refine hw.relabel rfl (Equiv.swap i j) ?_ ?_ ?_ ?_
  · exact fun k c hk => ⟨hw.valid _ _ hk, hw.within _ _ hk⟩
  · exact fun k c p hk hp => ⟨c, hk, hp⟩
  · exact fun k l c d p _ _ _ _ he => (Equiv.swap i j).injective he
  · intro l d p hl hd
    refine ⟨Equiv.swap i j l, d, ?_, hd⟩
    show w.objects (Equiv.swap i j (Equiv.swap i j l)) = some d
    rw [Equiv.swap_apply_self, hl]

end Coio.FlatBuffer
