import Coio.Io.Exact
import Mathlib.Data.List.Induction

namespace Coio.Io
set_option autoImplicit true

/-- A dynamic buffer whose readable bytes can be removed from the front. -/
class ConsumingBuffer (β : Type u) extends DynamicBuffer β where
  consume : β → Nat → β

class LawfulConsumingBuffer (β : Type u) [ConsumingBuffer β] extends LawfulDynamicBuffer β where
  consumed : Ok b → n ≤ DynamicBuffer.size b →
    Ok (ConsumingBuffer.consume b n) ∧
      DynamicBuffer.data (ConsumingBuffer.consume b n) = (DynamicBuffer.data b).drop n

instance : ConsumingBuffer FlatMemory where
  consume m n := { m with buffer := FlatBuffer.consume n m.buffer }

instance : LawfulConsumingBuffer FlatMemory where
  consumed h _ :=
    have hs := FlatBuffer.consume_spec h.valid h.within
    ⟨h.of_safe hs.1, hs.2.1⟩

/-- A device on which every operation succeeds. -/
def PartialDevice.Unfailing (dev : PartialDevice σ) : Prop :=
  ∀ s n, 0 < n → ∃ k, (dev.transfer_some s n).1 = .value k

variable [AddMonoidWithOne P]

/-- The memory of the caller with the readable bytes of a buffer at address `0`. -/
def Transferring.over (w : Transferring σ P) (bytes : List UInt8) : Transferring σ P :=
  { w with medium := { w.medium with memory := fun i => bytes.getD i 0 } }

variable [DecidableEq P]

section
variable [ConsumingBuffer β]

/-- `write_at` on a dynamic buffer, which does not look at `total`. -/
def write_at_dynamic (dev : PartialDevice σ) (offset : P) (dyn_buffer : β) (_total fuel : Nat)
    (w : Transferring σ P) : Option (Outcome × β × Transferring σ P) :=
  let data := DynamicBuffer.data dyn_buffer
  match write_at dev offset ⟨0, data.length⟩ fuel (w.over data) with
  | some (.returns bytes_transferred, w) =>
    some (.returns bytes_transferred, ConsumingBuffer.consume dyn_buffer bytes_transferred, w)
  | some (outcome, w) => some (outcome, dyn_buffer, w)
  | none => none

end

/-- `read_at` on a dynamic buffer; the span that `prepare` returns is at address `0`. -/
def read_at_dynamic [DynamicBuffer β] (dev : PartialDevice σ) (offset : P) (dyn_buffer : β)
    (total fuel : Nat) (w : Transferring σ P) : Option (Outcome × β × Transferring σ P) :=
  match DynamicBuffer.prepare dyn_buffer total with
  | none => some (.length_error, dyn_buffer, w)
  | some dyn_buffer =>
    match read_at dev offset ⟨0, total⟩ fuel w with
    | some (.returns bytes_transferred, w) =>
      let bytes := (List.range bytes_transferred).map w.medium.memory
      some (.returns total,
        DynamicBuffer.commit (DynamicBuffer.fill dyn_buffer bytes) bytes_transferred, w)
    | some (outcome, w) => some (outcome, dyn_buffer, w)
    | none => none

/-- A file with `bytes` stored from position `p` on. -/
def store (content : P → UInt8) (p : P) : List UInt8 → P → UInt8
  | [] => content
  | b :: bs => store (Function.update content p b) (p + 1) bs

/-- `write_at(device, offset, buffer, total)` transfers the first `total` readable bytes and no
other ones. -/
def WritesLength [ConsumingBuffer β] (dev : PartialDevice σ) (offset : P) (b : β)
    (total fuel : Nat) (w : Transferring σ P) : Prop :=
  ∃ b' w', write_at_dynamic dev offset b total fuel w = some (.returns total, b', w') ∧
    w'.medium.content = store w.medium.content offset ((DynamicBuffer.data b).take total) ∧
    DynamicBuffer.data b' = (DynamicBuffer.data b).drop total

theorem store_concat (content : P → UInt8) (p : P) (bs : List UInt8) (b : UInt8) :
    store content p (bs ++ [b]) =
      Function.update (store content p bs) (p + (bs.length : P)) b := by
  induction bs generalizing content p with
  | nil => simp [store]
  | cons c bs ih =>
    rw [List.cons_append, store, ih, store, List.length_cons, Nat.cast_succ, add_assoc,
      ← Nat.cast_one, ← Nat.cast_add, ← Nat.cast_add, Nat.add_comm]

/-- Where positions do not wrap, byte `j` is at position `p + j`, and nothing else has changed. -/
theorem store_spec (content : P → UInt8) (p : P) (bs : List UInt8)
    (hp : ∀ j k, j < bs.length → k < bs.length → p + (j : P) = p + (k : P) → j = k) :
    (∀ j (h : j < bs.length), store content p bs (p + j) = bs[j]) ∧
      ∀ x, (∀ j < bs.length, x ≠ p + j) → store content p bs x = content x := by
  induction bs using List.reverseRecOn with
  | nil => exact ⟨nofun, fun _ _ => rfl⟩
  | append_singleton bs b ih =>
    simp only [List.length_append, List.length_cons, List.length_nil, Nat.zero_add] at hp ⊢
    obtain ⟨hin, hout⟩ := ih fun j k hj hk => hp j k (by omega) (by omega)
    rw [store_concat]
    refine ⟨fun j hj => ?_, fun x hx => ?_⟩
    · by_cases hj' : j = bs.length
      · subst hj'
        rw [Function.update_self, List.getElem_concat_length]
        rfl
      · have hne : p + (j : P) ≠ p + (bs.length : P) := fun he =>
          hj' (hp j bs.length (by omega) (by omega) he)
        rw [Function.update_of_ne hne, hin j (by omega), List.getElem_append_left]
    · rw [Function.update_of_ne (hx bs.length (by omega))]
      exact hout x fun j hj => hx j (by omega)

theorem Medium.content_moves_write (m : Medium P) (p : P) (n : Nat) :
    (m.moves .write 0 p n).content = store m.content p ((List.range n).map m.memory) ∧
      (m.moves .write 0 p n).memory = m.memory := by
  induction n with
  | zero => exact ⟨rfl, rfl⟩
  | succ n ih =>
    obtain ⟨hc, hm⟩ := ih
    refine ⟨?_, hm⟩
    rw [List.range_succ, List.map_append, List.map_singleton, store_concat, List.length_map,
      List.length_range, ← hc]
    simp only [Medium.moves, Medium.move, hm, Nat.zero_add]

theorem Script.none_of_unfailing {dev : PartialDevice σ} (hd : dev.Unfailing)
    (h : Script dev s r n e s') : e = none := by
  induction h with
  | done => rfl
  | failed hr hs =>
    obtain ⟨k, hk⟩ := hd _ _ hr
    rw [hs] at hk
    cases hk
  | stopped hr hs =>
    obtain ⟨k, hk⟩ := hd _ _ hr
    rw [hs] at hk
    cases hk
  | moved _ _ _ ih => exact ih

/-- Without a failure the loop transfers the whole span, in as many partial transfers as the device
makes. -/
theorem transfer_unfailing {dev : PartialDevice σ} (hd : dev.Unfailing) (dir : Direction)
    (offset : P) (w : Transferring σ P) (hf : n ≤ fuel) :
    ∃ s, transfer .random_access dir dev offset ⟨0, n⟩ fuel w =
      some (.returns n, landed .random_access dir 0 offset n w s) := by
  by_cases h₀ : n = 0
  · subst h₀
    exact ⟨w.device, rfl⟩
  · obtain ⟨m, e, s, h⟩ := Script.exists dev w.device n
    obtain rfl := h.none_of_unfailing hd
    obtain rfl := h.complete_iff.1 rfl
    have hloop := transferLoop_exact dir h (Nat.pos_of_ne_zero h₀)
      (show m ≤ (⟨0, m⟩ : Bytes).size from Nat.le_refl m)
      (show Located .random_access offset offset w from rfl) hf
    refine ⟨s, (if_neg h₀).trans (hloop.trans ?_)⟩
    simp only [Nat.sub_self, Nat.add_zero, Option.elim_none]

theorem map_getD_range (bytes : List UInt8) :
    (List.range bytes.length).map (fun i => bytes.getD i 0) = bytes := by
  refine List.ext_getElem (by simp) fun i hi hi' => ?_
  simp [hi']

open LawfulDynamicBuffer (Ok)

/-- `read_at` on a dynamic buffer honours its length: it appends the `total` bytes from the offset
on. -/
theorem read_at_dynamic_exact [DynamicBuffer β] [UnfailingBuffer β] {dev : PartialDevice σ}
    (hd : dev.Unfailing) (offset : P) {b : β} (hb : Ok b)
    (ht : DynamicBuffer.size b + total ≤ DynamicBuffer.max_size b) (hf : total ≤ fuel)
    (w : Transferring σ P) :
    ∃ b' w', read_at_dynamic dev offset b total fuel w = some (.returns total, b', w') ∧
      w'.medium.content = w.medium.content ∧
      DynamicBuffer.data b' =
        DynamicBuffer.data b ++
          (List.range total).map fun j : Nat => w.medium.content (offset + j) := by
  obtain ⟨b₁, hprep⟩ := UnfailingBuffer.prepare_some hb ht
  obtain ⟨s, hs⟩ := transfer_unfailing hd .read offset w hf
  obtain ⟨hcontent, hmem, -⟩ := w.medium.moves_read 0 offset total
  have hbytes : (List.range total).map (w.medium.moves .read 0 offset total).memory =
      (List.range total).map fun j : Nat => w.medium.content (offset + j) := by
    refine List.map_congr_left fun j hj => ?_
    have := hmem j (List.mem_range.1 hj)
    rwa [Nat.zero_add] at this
  have hlen : ((List.range total).map (w.medium.moves .read 0 offset total).memory).length =
      total := by
    rw [List.length_map, List.length_range]
  have hdata := (LawfulDynamicBuffer.committed hb ht hprep (Nat.le_of_eq hlen)).2.1
  rw [hlen, hbytes] at hdata
  refine ⟨_, landed .random_access .read 0 offset total w s, ?_, hcontent, hdata⟩
  simp only [read_at_dynamic, hprep, read_at, hs, landed, hbytes]

variable [ConsumingBuffer β] [LawfulConsumingBuffer β]

/-- What the code does, whatever `total` is: the whole buffer goes to the device. -/
theorem write_at_dynamic_eq {dev : PartialDevice σ} (hd : dev.Unfailing) (offset : P) {b : β}
    (hb : Ok b) (total : Nat) (hf : DynamicBuffer.size b ≤ fuel) (w : Transferring σ P) :
    ∃ w', write_at_dynamic dev offset b total fuel w =
        some (.returns (DynamicBuffer.size b),
          ConsumingBuffer.consume b (DynamicBuffer.size b), w') ∧
      w'.medium.content = store w.medium.content offset (DynamicBuffer.data b) := by
  have hsize := LawfulDynamicBuffer.size_eq hb
  rw [hsize] at hf
  obtain ⟨s, hs⟩ := transfer_unfailing hd .write offset (w.over (DynamicBuffer.data b)) hf
  have hc := ((w.over (DynamicBuffer.data b)).medium.content_moves_write offset
    (DynamicBuffer.data b).length).1
  refine ⟨landed .random_access .write 0 offset (DynamicBuffer.data b).length
    (w.over (DynamicBuffer.data b)) s, ?_, ?_⟩
  · simp only [write_at_dynamic, write_at, hs, hsize]
  · exact hc.trans (congrArg (store w.medium.content offset) (map_getD_range _))

/-- `write_at` on a dynamic buffer honours its length exactly when that is the buffer's size. -/
theorem write_at_dynamic_iff {dev : PartialDevice σ} (hd : dev.Unfailing) (offset : P) {b : β}
    (hb : Ok b) (ht : total ≤ DynamicBuffer.size b) (hf : DynamicBuffer.size b ≤ fuel)
    (w : Transferring σ P) :
    WritesLength dev offset b total fuel w ↔ total = DynamicBuffer.size b := by
  obtain ⟨w', hw, hc⟩ := write_at_dynamic_eq hd offset hb total hf w
  constructor
  · rintro ⟨b', w'', h, -⟩
    rw [hw] at h
    cases h
    rfl
  · rintro rfl
    have hsize := LawfulDynamicBuffer.size_eq hb
    refine ⟨_, w', hw, ?_, (LawfulConsumingBuffer.consumed hb (Nat.le_refl _)).2⟩
    rw [hc, hsize, List.take_length]

/-- A device that moves one byte at a time. -/
def patient : PartialDevice Unit where
  transfer_some s _ := (.value 1, s)
  progress s n k hn h := by
    cases h
    exact ⟨Nat.one_pos, hn⟩

/-- A flat buffer of three bytes. -/
def threeBytes : FlatMemory where
  heap := Heap.empty.alloc 0 () [97, 98, 99]
  buffer := { alloc_ := (), data_ := some 0, out_ := 3, last_ := 3, end_ := 3 }

theorem threeBytes_ok : threeBytes.Ok where
  valid :=
    { in_le := by decide, out_le := by decide, last_le := by decide, end_lt := by decide
      max_lt := by decide, null := by decide
      block := fun p hp => ⟨[97, 98, 99], by cases hp; rfl, rfl⟩ }
  within := show 3 - 0 ≤ Word.modulus - 1 by decide
  alone q hq := Heap.alloc_of_ne fun he => hq (he ▸ rfl)

/-- Asked to write one byte, `write_at` writes all three. -/
theorem write_at_dynamic_three :
    ¬ WritesLength patient 10 threeBytes 1 3 (⟨(), ⟨fun _ => 0, fun _ => 0⟩, 0⟩ :
      Transferring Unit Nat) := by
  rintro ⟨b', w', h, -⟩
  obtain ⟨w'', hw, -⟩ := write_at_dynamic_eq (fun _ _ _ => ⟨1, rfl⟩ : patient.Unfailing) 10
    (show Ok threeBytes from threeBytes_ok) 1 (show 3 ≤ 3 by decide)
    (⟨(), ⟨fun _ => 0, fun _ => 0⟩, 0⟩ : Transferring Unit Nat)
  rw [hw] at h
  have hn : DynamicBuffer.size threeBytes = 1 := by
    injection h with h
    injection congrArg Prod.fst h
  exact absurd hn (by decide)

theorem write_at_dynamic_iff_three : patient.Unfailing ∧ threeBytes.Ok ∧
    WritesLength patient 10 threeBytes 3 3 (⟨(), ⟨fun _ => 0, fun _ => 0⟩, 0⟩ :
      Transferring Unit Nat) :=
  ⟨fun _ _ _ => ⟨1, rfl⟩, threeBytes_ok,
    (write_at_dynamic_iff (fun _ _ _ => ⟨1, rfl⟩ : patient.Unfailing) 10
      (show Ok threeBytes from threeBytes_ok) (show 3 ≤ 3 by decide) (show 3 ≤ 3 by decide)
      _).2 rfl⟩

end Coio.Io
