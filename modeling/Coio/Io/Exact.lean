import Coio.Io.Transfer
import Mathlib.Data.Nat.Cast.Basic

namespace Coio.Io
set_option autoImplicit true

/-- Asked for `r` bytes, the device moves `n` before the first failure, if there is one. -/
inductive Script (dev : PartialDevice σ) : σ → Nat → Nat → Option ErrorCode → σ → Prop
  | done : Script dev s 0 0 none s
  | failed : 0 < r → dev.transfer_some s r = (.error ec, s') → Script dev s r 0 (some ec) s'
  | stopped : 0 < r → dev.transfer_some s r = (.stopped, s') →
      Script dev s r 0 (some .operation_canceled) s'
  | moved : 0 < r → dev.transfer_some s r = (.value k, s') → Script dev s' (r - k) n e s'' →
      Script dev s r (k + n) e s''

variable {dev : PartialDevice σ}

theorem Script.le (h : Script dev s r n e s') : n ≤ r := by
  induction h with
  | done => exact Nat.le_refl _
  | failed => exact Nat.zero_le _
  | stopped => exact Nat.zero_le _
  | moved hr hk _ ih =>
    have := (dev.progress _ _ _ hr (congrArg Prod.fst hk)).2
    omega

/-- The bytes are all moved exactly when there is no failure. -/
theorem Script.complete_iff (h : Script dev s r n e s') : e = none ↔ n = r := by
  induction h with
  | done => simp
  | failed hr => simp; omega
  | stopped hr => simp; omega
  | moved hr hk _ ih =>
    have := (dev.progress _ _ _ hr (congrArg Prod.fst hk)).2
    rw [ih]
    omega

/-- The device and the size decide what is moved. -/
theorem Script.unique (h : Script dev s r n e s') (h' : Script dev s r n' e' t) :
    n = n' ∧ e = e' ∧ s' = t := by
  induction h generalizing n' with
  | done =>
    cases h' with
    | done => exact ⟨rfl, rfl, rfl⟩
    | failed hr | stopped hr | moved hr => exact absurd hr (Nat.lt_irrefl 0)
  | failed hr hc =>
    cases h' with
    | done => exact absurd hr (Nat.lt_irrefl 0)
    | failed _ hc' =>
      rw [hc] at hc'
      cases hc'
      exact ⟨rfl, rfl, rfl⟩
    | stopped _ hc' | moved _ hc' =>
      rw [hc] at hc'
      cases hc'
  | stopped hr hc =>
    cases h' with
    | done => exact absurd hr (Nat.lt_irrefl 0)
    | stopped _ hc' =>
      rw [hc] at hc'
      cases hc'
      exact ⟨rfl, rfl, rfl⟩
    | failed _ hc' | moved _ hc' =>
      rw [hc] at hc'
      cases hc'
  | moved hr hc _ ih =>
    cases h' with
    | done => exact absurd hr (Nat.lt_irrefl 0)
    | failed _ hc' | stopped _ hc' =>
      rw [hc] at hc'
      cases hc'
    | moved _ hc' h' =>
      rw [hc] at hc'
      cases hc'
      obtain ⟨rfl, rfl, rfl⟩ := ih h'
      exact ⟨rfl, rfl, rfl⟩

theorem Script.exists (dev : PartialDevice σ) (s : σ) (r : Nat) :
    ∃ n e s', Script dev s r n e s' := by
  induction r using Nat.strong_induction_on generalizing s with
  | _ r ih =>
    by_cases h₀ : r = 0
    · subst h₀
      exact ⟨0, none, s, .done⟩
    have hr : 0 < r := by omega
    rcases hc : dev.transfer_some s r with ⟨c, s'⟩
    cases c with
    | error ec => exact ⟨0, some ec, s', .failed hr hc⟩
    | stopped => exact ⟨0, _, s', .stopped hr hc⟩
    | value k =>
      have hk := dev.progress _ _ _ hr (congrArg Prod.fst hc)
      obtain ⟨n, e, s'', h⟩ := ih (r - k) (by omega) s'
      exact ⟨k + n, e, s'', .moved hr hc h⟩

section

variable [DecidableEq P] [AddMonoidWithOne P]

theorem Medium.moves_add (m : Medium P) (i : Nat) (p : P) (a b : Nat) :
    (m.moves dir i p a).moves dir (i + a) (p + a) b = m.moves dir i p (a + b) := by
  induction b with
  | zero => rfl
  | succ b ih =>
    rw [← Nat.add_assoc]
    simp only [Medium.moves, ih, Nat.cast_add, add_assoc]

/-- A read leaves byte `j` of the contents at index `j` of its part of the memory. -/
theorem Medium.moves_read (m : Medium P) (i : Nat) (p : P) (n : Nat) :
    (m.moves .read i p n).content = m.content ∧
      (∀ j < n, (m.moves .read i p n).memory (i + j) = m.content (p + j)) ∧
      ∀ x, x < i ∨ i + n ≤ x → (m.moves .read i p n).memory x = m.memory x := by
  induction n with
  | zero => exact ⟨rfl, nofun, fun _ _ => rfl⟩
  | succ n ih =>
    obtain ⟨hc, hin, hout⟩ := ih
    refine ⟨hc, fun j hj => ?_, fun x hx => ?_⟩
    · by_cases hjn : j = n
      · subst hjn
        simp only [Medium.moves, Medium.move, Function.update_self, hc]
      · have hne : i + j ≠ i + n := by omega
        simp only [Medium.moves, Medium.move, Function.update_of_ne hne]
        exact hin j (by omega)
    · have hne : x ≠ i + n := by omega
      simp only [Medium.moves, Medium.move, Function.update_of_ne hne]
      exact hout x (by omega)

/-- A write leaves byte `j` of its part of the memory at position `j`, where positions do not
wrap. -/
theorem Medium.moves_write (m : Medium P) (i : Nat) (p : P) (n : Nat)
    (hp : ∀ j k, j < n → k < n → p + (j : P) = p + (k : P) → j = k) :
    (m.moves .write i p n).memory = m.memory ∧
      (∀ j < n, (m.moves .write i p n).content (p + j) = m.memory (i + j)) ∧
      ∀ x, (∀ j < n, x ≠ p + j) → (m.moves .write i p n).content x = m.content x := by
  induction n with
  | zero => exact ⟨rfl, nofun, fun _ _ => rfl⟩
  | succ n ih =>
    obtain ⟨hc, hin, hout⟩ := ih fun j k hj hk => hp j k (by omega) (by omega)
    refine ⟨hc, fun j hj => ?_, fun x hx => ?_⟩
    · by_cases hjn : j = n
      · subst hjn
        simp only [Medium.moves, Medium.move, Function.update_self, hc]
      · have hne : p + (j : P) ≠ p + (n : P) := fun he => hjn (hp j n hj (Nat.lt_succ_self n) he)
        simp only [Medium.moves, Medium.move, Function.update_of_ne hne]
        exact hin j (by omega)
    · simp only [Medium.moves, Medium.move, Function.update_of_ne (hx n (Nat.lt_succ_self n))]
      exact hout x fun j hj => hx j (by omega)

/-- The device will move its next byte at position `p`. -/
def Located (kind : Kind) (p : P) (offset : P) (w : Transferring σ P) : Prop :=
  match kind with
  | .stream => w.position = p
  | .random_access => offset = p

/-- What `n` bytes moved at position `p` leave behind, with the device in state `s`. -/
def landed (kind : Kind) (dir : Direction) (i : Nat) (p : P) (n : Nat) (w : Transferring σ P)
    (s : σ) : Transferring σ P where
  device := s
  medium := w.medium.moves dir i p n
  position := match kind with
    | .stream => p + n
    | .random_access => w.position

theorem landed_landed {p : P} (w : Transferring σ P) (s₁ s₂ : σ) :
    landed kind dir (i + k) (p + k) n (landed kind dir i p k w s₁) s₂ =
      landed kind dir i p (k + n) w s₂ := by
  simp only [landed, Medium.moves_add]
  cases kind with
  | stream => simp only [Nat.cast_add, add_assoc]
  | random_access => rfl

theorem landed_zero {w : Transferring σ P} (hl : Located kind p offset w) (s : σ) :
    landed kind dir i p 0 w s = { w with device := s } := by
  cases kind with
  | stream =>
    simp only [Located] at hl
    simp only [landed, Medium.moves, Nat.cast_zero, add_zero, hl]
  | random_access => rfl

theorem transfer_some_value {w : Transferring σ P} (hl : Located kind p offset w)
    (h : dev.transfer_some w.device buffer.size = (.value k, s)) :
    transfer_some kind dir dev offset buffer w =
      (.value k, landed kind dir buffer.start p k w s) := by
  cases kind with
  | stream =>
    simp only [Located] at hl
    simp only [transfer_some, h, landed, hl]
  | random_access =>
    simp only [Located] at hl
    simp only [transfer_some, h, landed, hl]

theorem transfer_some_fails (dir : Direction) (buffer : Bytes) {w : Transferring σ P}
    (hl : Located kind p offset w) (h : dev.transfer_some w.device buffer.size = (c, s))
    (hc : ∀ k, c ≠ .value k) :
    transfer_some kind dir dev offset buffer w = (c, landed kind dir buffer.start p 0 w s) := by
  rw [landed_zero hl]
  cases c with
  | value k => exact absurd rfl (hc k)
  | error ec => simp only [transfer_some, h]
  | stopped => simp only [transfer_some, h]

theorem Located.next {p : P} {w : Transferring σ P} (hl : Located kind p offset w)
    (dir : Direction) (i k : Nat) (s : σ) :
    Located kind (p + k) (kind.advance offset k) (landed kind dir i p k w s) := by
  cases kind with
  | stream => rfl
  | random_access =>
    simp only [Located] at hl
    simp only [Located, Kind.advance, hl]

/-- The loop moves the rest of the buffer up to the first failure. -/
theorem transferLoop_exact (dir : Direction) {w : Transferring σ P}
    (h : Script dev w.device remain n e s')
    (hr : 0 < remain) (hb : remain ≤ buffer.size) (hl : Located kind p offset w)
    (hf : remain ≤ fuel) :
    transferLoop kind dir dev buffer fuel remain offset w =
      some (e.elim (.returns buffer.size) .throws,
        landed kind dir (buffer.start + (buffer.size - remain)) p n w s') := by
  induction fuel generalizing remain n w p offset with
  | zero => omega
  | succ fuel ih =>
    cases h with
    | done => omega
    | failed _ hs =>
      have hx := transfer_some_fails dir (buffer.subspan (buffer.size - remain) remain) hl hs nofun
      simp only [transferLoop, hx]
      rfl
    | stopped _ hs =>
      have hx := transfer_some_fails dir (buffer.subspan (buffer.size - remain) remain) hl hs nofun
      simp only [transferLoop, hx]
      rfl
    | moved _ hs hrest =>
      rename_i s₁ k n _
      have hk := dev.progress _ _ _ hr (congrArg Prod.fst hs)
      have hx : transfer_some kind dir dev offset (buffer.subspan (buffer.size - remain) remain) w =
          (.value k, landed kind dir (buffer.start + (buffer.size - remain)) p k w s₁) :=
        transfer_some_value hl hs
      simp only [transferLoop, hx]
      split
      · next hmore =>
        rw [ih hrest hmore (by omega) (hl.next _ _ _ _) (by omega)]
        have hoff : buffer.size - (remain - k) = buffer.size - remain + k := by omega
        rw [hoff, ← Nat.add_assoc, landed_landed]
      · next hend =>
        have h₀ : remain - k = 0 := by omega
        rw [h₀] at hrest
        cases hrest with
        | done => rfl
        | failed h => omega
        | stopped h => omega
        | moved h => omega

section

omit [DecidableEq P] [AddMonoidWithOne P]

theorem transferRun_done {f : Factory σ P} {st : TransferState σ P} (h : st.inner_state = false) :
    transferRun f fuel st = st := by
  cases fuel with
  | zero => rfl
  | succ fuel => simp [transferRun, transferDeliver, h]

theorem transferRun_succ {f : Factory σ P} {st : TransferState σ P}
    (h : transferDeliver f st = some st') :
    transferRun f (fuel + 1) st = transferRun f fuel st' := by
  simp only [transferRun, h]

end

/-- A failure completes the asynchronous form with the bytes moved so far. -/
theorem transferDeliver_fails (dir : Direction) {st : TransferState σ P}
    (hi : st.inner_state = true)
    (hl : Located kind p st.offset st.world)
    (h : dev.transfer_some st.world.device st.buffer.size = (c, s))
    (hc : c = .error ec ∨ c = .stopped ∧ ec = .operation_canceled) :
    transferDeliver (io_sender_factory kind dir dev) st = some
      { st with
        world := landed kind dir st.buffer.start p 0 st.world s, inner_state := false
        completions := st.completions ++ [(some ec, st.accumulated)] } := by
  rcases hc with rfl | ⟨rfl, rfl⟩
  · simp only [transferDeliver, if_pos hi, io_sender_factory,
      transfer_some_fails dir st.buffer hl h nofun]
    rfl
  · simp only [transferDeliver, if_pos hi, io_sender_factory,
      transfer_some_fails dir st.buffer hl h nofun]
    rfl

/-- A partial transfer goes on with the rest of the buffer, or completes. -/
theorem transferDeliver_value (dir : Direction) {st : TransferState σ P}
    (hi : st.inner_state = true)
    (hl : Located kind p st.offset st.world)
    (h : dev.transfer_some st.world.device st.buffer.size = (.value k, s)) :
    transferDeliver (io_sender_factory kind dir dev) st =
      some (transferSetValue k (st.buffer.size - k ≠ 0)
        { st with
          world := landed kind dir st.buffer.start p k st.world s, inner_state := false
          offset := kind.advance st.offset k
          buffer := st.buffer.subspan k (st.buffer.size - k) }) := by
  simp only [transferDeliver, if_pos hi, io_sender_factory, transfer_some_value hl h]
  rfl

/-- The asynchronous form moves the rest of the buffer up to the first failure. -/
theorem transferRun_exact (dir : Direction) {st : TransferState σ P} (hsz : st.buffer.size = r)
    (h : Script dev st.world.device r n e s') (hr : 0 < r)
    (hl : Located kind p st.offset st.world) (hi : st.inner_state = true) (hf : r ≤ fuel) :
    ∃ st', transferRun (io_sender_factory kind dir dev) fuel st = st' ∧
      st'.completions = st.completions ++ [(e, st.accumulated + n)] ∧ st'.inner_state = false ∧
      st'.world = landed kind dir st.buffer.start p n st.world s' := by
  induction fuel generalizing st n p r with
  | zero => omega
  | succ fuel ih =>
    cases h with
    | done => omega
    | failed _ hs =>
      rw [← hsz] at hs
      have hd := transferDeliver_fails dir hi hl hs (.inl rfl)
      exact ⟨_, (transferRun_succ hd).trans (transferRun_done rfl), rfl, rfl, rfl⟩
    | stopped _ hs =>
      rw [← hsz] at hs
      have hd := transferDeliver_fails dir hi hl hs (.inr ⟨rfl, rfl⟩)
      exact ⟨_, (transferRun_succ hd).trans (transferRun_done rfl), rfl, rfl, rfl⟩
    | moved _ hs hrest =>
      rename_i s₁ k n _
      have hk := dev.progress _ _ _ hr (congrArg Prod.fst hs)
      subst hsz
      have hd := transferDeliver_value dir hi hl hs
      by_cases hend : st.buffer.size - k = 0
      · rw [transferSetValue, if_neg (by simp [hend])] at hd
        rw [hend] at hrest
        cases hrest with
        | done => exact ⟨_, (transferRun_succ hd).trans (transferRun_done rfl), rfl, rfl, rfl⟩
        | failed h => omega
        | stopped h => omega
        | moved h => omega
      · rw [transferSetValue, if_pos (by simp [hend])] at hd
        have hnext := hl.next dir st.buffer.start k s₁
        have hmore : 0 < st.buffer.size - k := by omega
        have hfuel : st.buffer.size - k ≤ fuel := by omega
        obtain ⟨st', hrun, hcomp, hin, hw⟩ := ih (show (restart
          { st with
            world := landed kind dir st.buffer.start p k st.world s₁
            offset := kind.advance st.offset k
            buffer := st.buffer.subspan k (st.buffer.size - k)
            accumulated := st.accumulated + k }).buffer.size = _ from rfl)
          hrest hmore hnext rfl hfuel
        refine ⟨st', (transferRun_succ hd).trans hrun, ?_, hin, ?_⟩
        · rw [hcomp, ← Nat.add_assoc]
          rfl
        · rw [hw]
          exact landed_landed st.world s₁ s'

/-- The synchronous forms. -/
def syncForm (kind : Kind) (dir : Direction) (dev : PartialDevice σ) (offset : P) (buffer : Bytes)
    (fuel : Nat) (w : Transferring σ P) : Option (Outcome × Transferring σ P) :=
  match kind, dir with
  | .stream, .read => read dev buffer fuel w
  | .stream, .write => write dev buffer fuel w
  | .random_access, .read => read_at dev offset buffer fuel w
  | .random_access, .write => write_at dev offset buffer fuel w

/-- The asynchronous forms. -/
def asyncForm (kind : Kind) (dir : Direction) (dev : PartialDevice σ) (offset : P) (buffer : Bytes)
    (fuel : Nat) (w : Transferring σ P) : TransferState σ P :=
  match kind, dir with
  | .stream, .read => async_read dev buffer fuel w
  | .stream, .write => async_write dev buffer fuel w
  | .random_access, .read => async_read_at dev offset buffer fuel w
  | .random_access, .write => async_write_at dev offset buffer fuel w

/-- Where a form begins. -/
def Kind.base (kind : Kind) (offset : P) (w : Transferring σ P) : P :=
  match kind with
  | .stream => w.position
  | .random_access => offset

theorem syncForm_eq (dev : PartialDevice σ) (kind : Kind) (dir : Direction) (offset : P)
    (fuel : Nat) (hb : 0 < buffer.size) (w : Transferring σ P) :
    ∃ offset', Located kind (kind.base offset w) offset' w ∧
      syncForm kind dir dev offset buffer fuel w =
        transferLoop kind dir dev buffer fuel buffer.size offset' w := by
  have h₀ : ¬ buffer.size = 0 := by omega
  cases kind with
  | stream =>
    refine ⟨0, rfl, ?_⟩
    cases dir <;> exact if_neg h₀
  | random_access =>
    refine ⟨offset, rfl, ?_⟩
    cases dir <;> exact if_neg h₀

theorem asyncForm_eq (dev : PartialDevice σ) (kind : Kind) (dir : Direction) (offset : P)
    (buffer : Bytes) (fuel : Nat)
    (w : Transferring σ P) :
    ∃ offset', Located kind (kind.base offset w) offset' w ∧
      asyncForm kind dir dev offset buffer fuel w =
        async_transfer kind dir dev offset' buffer fuel w := by
  cases kind with
  | stream => exact ⟨0, rfl, by cases dir <;> rfl⟩
  | random_access => exact ⟨offset, rfl, by cases dir <;> rfl⟩

/-- With a device that moves `n` bytes before its first failure `e`, both forms move the first `n`
bytes of the buffer and report `e`; the asynchronous form completes once, with `n`. -/
theorem transfers_exact (kind : Kind) (dir : Direction) (dev : PartialDevice σ) (offset : P)
    (w : Transferring σ P) (hb : 0 < buffer.size) (hf : buffer.size ≤ fuel) :
    ∃ n e s', Script dev w.device buffer.size n e s' ∧ (e = none ↔ n = buffer.size) ∧
      (asyncForm kind dir dev offset buffer fuel w).completions = [(e, n)] ∧
      (asyncForm kind dir dev offset buffer fuel w).inner_state = false ∧
      (asyncForm kind dir dev offset buffer fuel w).world.medium =
        w.medium.moves dir buffer.start (kind.base offset w) n ∧
      (asyncForm kind dir dev offset buffer fuel w).world.device = s' ∧
      syncForm kind dir dev offset buffer fuel w =
        some (e.elim (.returns buffer.size) .throws,
          (asyncForm kind dir dev offset buffer fuel w).world) := by
  obtain ⟨n, e, s', h⟩ := Script.exists dev w.device buffer.size
  obtain ⟨o₁, hl₁, hs⟩ := syncForm_eq dev kind dir offset fuel hb w
  obtain ⟨o₂, hl₂, ha⟩ := asyncForm_eq dev kind dir offset buffer fuel w
  have hloop := transferLoop_exact dir h hb (Nat.le_refl _) hl₁ hf
  obtain ⟨st', hrun, hcomp, hin, hw⟩ := transferRun_exact dir
    (show (restart { world := w, offset := o₂, buffer := buffer }).buffer.size = _ from rfl)
    h hb hl₂ rfl hf
  have ha' : asyncForm kind dir dev offset buffer fuel w = st' := ha.trans hrun
  rw [ha', hs, hloop, hcomp, hin, hw]
  refine ⟨n, e, s', h, h.complete_iff, ?_, rfl, rfl, rfl, ?_⟩
  · show [] ++ [(e, 0 + n)] = _
    rw [Nat.zero_add, List.nil_append]
  · rw [Nat.sub_self, Nat.add_zero]
    rfl

end

/-- A device that moves one byte at a time and breaks after as many as its state says. -/
def brittle : PartialDevice Nat where
  transfer_some s _ :=
    match s with
    | 0 => (.error (.system 5), 0)
    | s + 1 => (.value 1, s)
  progress s n k hn h := by
    cases s with
    | zero => cases h
    | succ s =>
      cases h
      exact ⟨Nat.one_pos, hn⟩

theorem transfers_exact_brittle :
    Script brittle 2 3 2 (some (.system 5)) 0 ∧
      (async_write_at brittle 10 ⟨0, 3⟩ 3 (⟨2, ⟨fun _ => 7, fun _ => 0⟩, 0⟩ :
        Transferring Nat Nat)).completions = [(some (.system 5), 2)] := by
  let w : Transferring Nat Nat := ⟨2, ⟨fun _ => 7, fun _ => 0⟩, 0⟩
  obtain ⟨n, e, s', h, -, hc, -⟩ := transfers_exact .random_access .write brittle 10 w
    (show 0 < (⟨0, 3⟩ : Bytes).size by decide) (show (⟨0, 3⟩ : Bytes).size ≤ 3 by decide)
  -- two bytes move one by one, and the third transfer fails
  have hscript : Script brittle 2 3 2 (some (.system 5)) 0 :=
    .moved (r := 3) (k := 1) (by decide) rfl
      (.moved (r := 2) (k := 1) (by decide) rfl (.failed (r := 1) (by decide) rfl))
  obtain ⟨rfl, rfl, rfl⟩ := h.unique hscript
  exact ⟨hscript, hc⟩

end Coio.Io
