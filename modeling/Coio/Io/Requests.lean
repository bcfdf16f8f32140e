import Coio.Io.Reference

namespace Coio.Io
open DynamicBuffer LawfulDynamicBuffer UnfailingBuffer Relation Search
set_option autoImplicit true

/-- A dynamic buffer that has room for what it holds, also between `prepare` and `commit`. -/
class RoomyBuffer (β : Type u) [DynamicBuffer β] extends UnfailingBuffer β where
  size_le_capacity : Ok b → size b ≤ capacity b
  prepare_ok : Ok b → size b + n ≤ max_size b → prepare b n = some b' →
    Ok b' ∧ max_size b' = max_size b

instance : RoomyBuffer FlatMemory where
  size_le_capacity h := h.valid.size_le
  prepare_ok h hle hp := by
    obtain ⟨m', hm, hok, _, hmax, _⟩ := h.prepare_spec hle
    rw [hp, Option.some.injEq] at hm
    exact hm ▸ ⟨hok, hmax⟩

/-- A call of `prepare` with what the buffer says of itself before it. -/
structure Request where
  size : Nat
  capacity : Nat
  max_size : Nat
  n : Nat
  deriving DecidableEq, Repr

/-- The request is neither empty nor too large, and no subtraction that leads to it wraps. -/
structure Request.Fits (q : Request) : Prop where
  size_le_capacity : q.size ≤ q.capacity
  size_le : q.size ≤ q.max_size
  pos : 1 ≤ q.n
  le : q.n ≤ q.max_size - q.size

/-- A dynamic buffer that records the calls of `prepare`. -/
structure Logged (β : Type u) where
  buffer : β
  requests : List Request := []

instance [DynamicBuffer β] : DynamicBuffer (Logged β) where
  size m := size m.buffer
  capacity m := capacity m.buffer
  max_size m := max_size m.buffer
  data m := data m.buffer
  prepare m n := (prepare m.buffer n).map fun b =>
    ⟨b, m.requests ++ [⟨size m.buffer, capacity m.buffer, max_size m.buffer, n⟩]⟩
  fill m bytes := { m with buffer := fill m.buffer bytes }
  commit m n := { m with buffer := commit m.buffer n }

theorem Logged.prepare_eq [DynamicBuffer β] {m m' : Logged β} (h : prepare m n = some m') :
    prepare m.buffer n = some m'.buffer ∧
      m'.requests = m.requests ++ [⟨size m, capacity m, max_size m, n⟩] := by
  obtain ⟨b, hb, rfl⟩ := Option.map_eq_some_iff.1 h
  exact ⟨hb, rfl⟩

instance [DynamicBuffer β] [RoomyBuffer β] : RoomyBuffer (Logged β) where
  Ok m := Ok m.buffer
  size_eq h := size_eq (β := β) h
  size_le h := size_le (β := β) h
  prepared h hle hp := prepared (β := β) h hle (Logged.prepare_eq hp).1
  committed h hle hp hl := committed (β := β) h hle (Logged.prepare_eq hp).1 hl
  prepare_some h hle := by
    obtain ⟨b, hb⟩ := prepare_some (β := β) h hle
    exact ⟨_, Option.map_eq_some_iff.2 ⟨b, hb, rfl⟩⟩
  size_le_capacity h := RoomyBuffer.size_le_capacity (β := β) h
  prepare_ok h hle hp := RoomyBuffer.prepare_ok (β := β) h hle (Logged.prepare_eq hp).1

/-- The device with a record of the sizes of the spans that it is asked to read into. -/
def InputStreamDevice.logged (dev : InputStreamDevice σ) : InputStreamDevice (σ × List Nat) where
  read_some s n := ((dev.read_some s.1 n).1, (dev.read_some s.1 n).2, s.2 ++ [n])
  length_le s n bytes h := dev.length_le s.1 n bytes h

/-- A read into a span that is not empty delivers a byte at least, if it does not fail. -/
def Feeds (dev : InputStreamDevice σ) : Prop :=
  ∀ s n bytes, 0 < n → (dev.read_some s n).1 = .value bytes → bytes ≠ []

theorem Feeds.logged (h : Feeds dev) : Feeds dev.logged := fun s n bytes => h s.1 n bytes

section Run

variable [DynamicBuffer β]

/-- In the rounds from a good buffer on every read is into a span that is not empty. -/
theorem Feeds.fed [LawfulDynamicBuffer β] {b : β} (h : Feeds dev) (hok : Ok b) :
    Fed dev d (s, b) := by
  intro y z bytes hy hr
  have hok' : Ok y.2 := by
    clear hr
    induction hy with
    | refl => exact hok
    | tail _ hr ih =>
      obtain ⟨bytes, hr⟩ := hr
      exact (hr.grows ih).1
  cases hr with
  | mk hno hne hprep hread =>
    exact h _ _ _ (le_bytes_to_read (size_le hok') hne) (congrArg Prod.fst hread)

variable [RoomyBuffer β] {b : β}

/-- What the calls of `prepare` and the reads have been in an operation on a buffer that was `b`. -/
structure Modest (b : β) (ns : List Nat) (m : Logged β) : Prop where
  fits : ∀ q ∈ m.requests, q.Fits
  reads : ns = m.requests.map Request.n
  count : ns.length ≤ max_size b - size b
  size_le : size m ≤ max_size m
  limit : max_size m = max_size b

/-- Between two rounds the buffer has grown by a byte for each read. -/
structure Kept (b : β) (ns : List Nat) (m : Logged β) : Prop where
  ok : Ok m
  fits : ∀ q ∈ m.requests, q.Fits
  reads : ns = m.requests.map Request.n
  grown : size b + ns.length ≤ size m
  limit : max_size m = max_size b

theorem Kept.modest (h : Kept b ns m) : Modest b ns m where
  fits := h.fits
  reads := h.reads
  count := by
    have hle := size_le h.ok
    have hgrown := h.grown
    have hmax := h.limit
    omega
  size_le := size_le h.ok
  limit := h.limit

theorem Kept.round (h : Kept b ns m) (hne : size m ≠ max_size m) :
    ∃ prep, prepare m (bytes_to_read m) = some prep ∧
      Modest b (ns ++ [bytes_to_read m]) prep ∧
      ∀ bytes, bytes ≠ [] → bytes.length ≤ bytes_to_read m →
        Kept b (ns ++ [bytes_to_read m]) (commit (fill prep bytes) bytes.length) ∧
          size m < size (commit (fill prep bytes) bytes.length) := by
  have hle := size_le h.ok
  have hpos := le_bytes_to_read hle hne
  have hroom := bytes_to_read_le hle
  obtain ⟨prep, hprep⟩ := prepare_some h.ok hroom
  obtain ⟨hok', hmax'⟩ := RoomyBuffer.prepare_ok h.ok hroom hprep
  have hreq := (Logged.prepare_eq hprep).2
  have hfits : ∀ q ∈ prep.requests, q.Fits := by
    intro q hq
    rw [hreq, List.mem_append, List.mem_singleton] at hq
    rcases hq with hq | rfl
    · exact h.fits q hq
    · exact ⟨RoomyBuffer.size_le_capacity h.ok, hle, hpos, by dsimp only; omega⟩
  have hreads : ns ++ [bytes_to_read m] = prep.requests.map Request.n := by
    rw [hreq, List.map_append, ← h.reads]
    rfl
  have hgrown := h.grown
  have hmax := h.limit
  refine ⟨prep, hprep, ⟨hfits, hreads, ?_, size_le hok', hmax'.trans hmax⟩,
    fun bytes hne hlen => ?_⟩
  · rw [List.length_append, List.length_singleton]
    omega
  · obtain ⟨hok'', hdata, hmax''⟩ := committed h.ok hroom hprep hlen
    have hbytes := List.length_pos_iff.2 hne
    have hsize : size (commit (fill prep bytes) bytes.length) = size m + bytes.length := by
      rw [size_eq hok'', hdata, List.length_append, ← size_eq h.ok]
    refine ⟨⟨hok'', hfits, hreads, ?_, hmax''.trans hmax⟩, by omega⟩
    rw [hsize, List.length_append, List.length_singleton]
    omega

/-- The loop comes to its end, as each round that goes on leaves less room. -/
theorem loop_ends (search : List UInt8 → Nat → Option Nat) (hdev : Feeds dev) (h : Kept b ns m)
    (hf : max_size b - size m < f) :
    ∃ r, readUntilLoop dev.logged search f pos (s, ns) m = some r ∧
      r.outcome ≠ .length_error ∧ Modest b r.device.2 r.buffer := by
  induction f generalizing pos s ns m with
  | zero => omega
  | succ f ih =>
    unfold readUntilLoop
    cases search (data m) pos with
    | some p => exact ⟨_, rfl, by rintro ⟨⟩, h.modest⟩
    | none =>
      by_cases hfull : size m = max_size m
      · exact ⟨_, if_pos hfull, by rintro ⟨⟩, h.modest⟩
      · obtain ⟨prep, hprep, hmodest, hkept⟩ := h.round hfull
        have hread : dev.logged.read_some (s, ns) (bytes_to_read m) =
          ((dev.read_some s (bytes_to_read m)).1, (dev.read_some s (bytes_to_read m)).2,
            ns ++ [bytes_to_read m]) := rfl
        dsimp only
        rw [if_neg hfull, hprep]
        dsimp only
        rw [hread]
        rcases hcase : dev.read_some s (bytes_to_read m) with ⟨c, s'⟩
        cases c with
        | value bytes =>
          have hpos := le_bytes_to_read (size_le h.ok) hfull
          have hne := hdev s _ bytes hpos (congrArg Prod.fst hcase)
          have hlen := dev.length_le s _ bytes (congrArg Prod.fst hcase)
          obtain ⟨hnext, hgrown⟩ := hkept bytes hne hlen
          refine ih hnext ?_
          have hle := size_le hnext.ok
          rw [hnext.limit] at hle
          omega
        | error ec => exact ⟨_, rfl, by rintro ⟨⟩, hmodest⟩
        | stopped => exact ⟨_, rfl, by rintro ⟨⟩, hmodest⟩

/-- Every request of both forms is for a byte at least and for no more than there is room for, and
both end after no more reads than there is room for bytes. -/
theorem read_until_requests (delim : Delim) (s : σ) (hok : Ok b) (hdev : Feeds dev) :
    (∃ r, read_until dev.logged delim (max_size b - size b + 1) (s, []) (⟨b, []⟩ : Logged β) =
      some r ∧ r.outcome ≠ .length_error ∧ Modest b r.device.2 r.buffer) ∧
    let st := async_read_until dev.logged delim (max_size b - size b + 1) (s, [])
      (⟨b, []⟩ : Logged β)
    st.terminated = false ∧ st.read_state = none ∧ st.completions.length = 1 ∧
      Modest b st.device.2 st.buffer := by
  have hstart : Kept b [] ⟨b, []⟩ := ⟨hok, nofun, rfl, Nat.le_refl _, rfl⟩
  by_cases hd : delim.bytes = []
  · have hdelim : delim = .string [] := by
      cases delim with
      | char c => cases hd
      | string d => exact congrArg Delim.string hd
    subst hdelim
    refine ⟨⟨_, rfl, nofun, hstart.modest⟩, ?_⟩
    have hasync : async_read_until dev.logged (.string []) (max_size b - size b + 1) (s, [])
        (⟨b, []⟩ : Logged β) = State.complete { device := (s, []), buffer := ⟨b, []⟩ } none 0 :=
      run_done rfl
    intro st
    simp only [st, hasync]
    exact ⟨rfl, rfl, rfl, hstart.modest⟩
  · have hend : ∃ r, readUntilLoop dev.logged delim.search (max_size b - size b + 1) 0 (s, [])
        (⟨b, []⟩ : Logged β) = some r ∧ r.outcome ≠ .length_error ∧ Modest b r.device.2 r.buffer :=
      loop_ends delim.search hdev hstart (Nat.lt_succ_self _)
    obtain ⟨r, hr, ho, hm⟩ := hend
    refine ⟨⟨r, ?_, ho, hm⟩, ?_⟩
    · rw [read_until_eq hd]
      exact hr
    · have hmatch := matches_of_loop hd (b := (⟨b, []⟩ : Logged β)) hok (Nat.zero_le _)
        (clear_zero hd) (hdev.logged.fed hok) hr
      rw [← async_eq hd] at hmatch
      intro st
      refine ⟨?_, hmatch.read_state, ?_, ?_⟩
      · exact hmatch.terminated.trans (decide_eq_false ho)
      · refine (congrArg List.length hmatch.completions).trans ?_
        cases hout : r.outcome with
        | returns n => rfl
        | throws ec => rfl
        | length_error => exact absurd hout ho
      · rw [hmatch.device, hmatch.buffer]
        exact hm

end Run

theorem bytewise_feeds : Feeds bytewise := by
  intro s n bytes hn h
  cases s with
  | nil => cases h
  | cons c s =>
    cases h
    rw [ne_eq, List.take_eq_nil_iff, not_or]
    exact ⟨Nat.ne_of_gt hn, nofun⟩

/-- Three bytes that are not the delimiter fill a buffer of that size. -/
theorem read_until_requests_three :
    let b : FlatMemory := { buffer := { alloc_ := (), max_ := 3 } }
    ∃ r, read_until bytewise.logged (.char 10) (max_size b - size b + 1) ([97, 98, 99, 10], [])
      (⟨b, []⟩ : Logged FlatMemory) = some r ∧
      r.outcome ≠ .length_error ∧ Modest b r.device.2 r.buffer := by
  intro b
  have hok : FlatMemory.Ok b :=
    { valid := FlatBuffer.valid_empty (by decide)
      within := Nat.zero_le _
      alone := fun _ _ => rfl }
  exact (read_until_requests (.char 10) [97, 98, 99, 10] hok bytewise_feeds).1

end Coio.Io
