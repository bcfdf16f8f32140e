import Coio.Io.Agreement

namespace Coio.Io
open DynamicBuffer LawfulDynamicBuffer Search
set_option autoImplicit true

/-- The device delivers `S` in pieces of any sizes between 1 and the size asked for, and then fails
with `E`. -/
inductive Delivers (dev : InputStreamDevice σ) (E : ErrorCode) : σ → List UInt8 → Prop
  | fails : (∀ n, 0 < n → (dev.read_some s n).1 = .error E) → Delivers dev E s []
  | piece (k : Nat → Nat) (next : Nat → σ) : S ≠ [] →
      (∀ n, 0 < n → 0 < k n ∧ k n ≤ n ∧ dev.read_some s n = (.value (S.take (k n)), next n)) →
      (∀ n, 0 < n → Delivers dev E (next n) (S.drop (k n))) → Delivers dev E s S

/-- The result of the reference search for `d` in `T` with at most `m` bytes, and the bytes that are
committed in the end. -/
structure Reference (d T : List UInt8) (E : ErrorCode) (m : Nat) (o : Outcome)
    (committed : List UInt8) : Prop where
  found : ∀ p, FirstEnd d T p → p ≤ m →
    o = .returns p ∧ committed <+: T ∧ p ≤ committed.length
  full : (∀ p, FirstEnd d T p → m < p) → m ≤ T.length →
    o = .throws .not_found ∧ committed = T.take m
  failed : (∀ p, FirstEnd d T p → m < p) → T.length < m → o = .throws E ∧ committed = T

theorem Reference.of_found (h : FirstEnd d B p) (hpre : B <+: T) (hm : B.length ≤ m) :
    Reference d T E m (.returns p) B where
  found q hq _ := by
    rw [hq.unique (h.of_initial hpre)]
    exact ⟨rfl, hpre, h.1.1⟩
  full hno _ := by
    have := hno p (h.of_initial hpre)
    have := h.1.1
    omega
  failed hno _ := by
    have := hno p (h.of_initial hpre)
    have := h.1.1
    omega

theorem Reference.of_full (hc : ∀ p, ¬ EndsAt d B p) (hpre : B <+: T) (hm : B.length = m) :
    Reference d T E m (.throws .not_found) B where
  found p hp hle := absurd (hp.to_initial hpre (by omega)).1 (hc p)
  full _ _ := ⟨rfl, by rw [← hm]; exact List.prefix_iff_eq_take.1 hpre⟩
  failed _ hlt := by
    have := hpre.length_le
    omega

theorem Reference.of_failed (hc : ∀ p, ¬ EndsAt d T p) (hm : T.length < m) :
    Reference d T E m (.throws E) T where
  found p hp _ := absurd hp.1 (hc p)
  full _ hle := by omega
  failed _ _ := ⟨rfl, rfl⟩

/-- Every piece that is delivered has bytes. -/
theorem Delivers.nonempty {dev : InputStreamDevice σ} (h : Delivers dev E s S) (hn : 0 < n)
    (hr : dev.read_some s n = (.value bytes, s')) :
    bytes ≠ [] ∧ ∃ S', S = bytes ++ S' ∧ Delivers dev E s' S' := by
  cases h with
  | fails hf =>
    have := hf n hn
    rw [hr] at this
    cases this
  | piece k next hne hk hnext =>
    obtain ⟨hpos, _, hread⟩ := hk n hn
    rw [hr, Prod.mk.injEq, Completion.value.injEq] at hread
    obtain ⟨rfl, rfl⟩ := hread
    refine ⟨?_, S.drop (k n), (List.take_append_drop _ _).symm, hnext n hn⟩
    intro hnil
    rcases List.take_eq_nil_iff.1 hnil with h₀ | h₀
    · omega
    · exact hne h₀

/-- A read that delivers nothing fails with the error at the end of the stream. -/
theorem Delivers.ended {dev : InputStreamDevice σ} (h : Delivers dev E s S) (hn : 0 < n)
    (hr : dev.read_some s n = (c, s')) (hc : ∀ bytes, c ≠ .value bytes) :
    S = [] ∧ c = .error E := by
  cases h with
  | fails hf =>
    have := hf n hn
    rw [hr] at this
    exact ⟨rfl, this⟩
  | piece k next hne hk hnext =>
    obtain ⟨_, _, hread⟩ := hk n hn
    rw [hr, Prod.mk.injEq] at hread
    exact absurd hread.1 (hc _)

section

variable [DynamicBuffer β] [UnfailingBuffer β] {dev : InputStreamDevice σ} {delim : Delim} {b : β}

theorem loop_reference (hd : delim.bytes ≠ []) (hok : Ok b) (hp : pos ≤ (data b).length)
    (hc : Clear delim.bytes (data b) pos) (h : Delivers dev E s S) (hf : S.length < fuel) :
    ∃ r, readUntilLoop dev delim.search fuel pos s b = some r ∧
      Reference delim.bytes (data b ++ S) E (max_size b) r.outcome (data r.buffer) := by
  induction fuel generalizing pos s b S with
  | zero => omega
  | succ fuel ih =>
    have hsize := size_eq hok
    have hle := size_le hok
    have hfind := delim.finds hd
    cases hs : delim.search (data b) pos with
    | some p =>
      refine ⟨⟨.returns p, s, b⟩, by simp only [readUntilLoop, hs], ?_⟩
      exact .of_found (hfind.found hp hc hs) (List.prefix_append _ _) (hsize ▸ hle)
    | none =>
      have hclear := hfind.missed hp hc hs
      have hno : ∀ p, ¬ EndsAt delim.bytes (data b) p := fun p he => hclear p he.1 he
      by_cases hfull : size b = max_size b
      · refine ⟨⟨.throws .not_found, s, b⟩, by simp only [readUntilLoop, hs, if_pos hfull], ?_⟩
        exact .of_full hno (List.prefix_append _ _) (hsize ▸ hfull)
      · have hask := le_bytes_to_read hle hfull
        obtain ⟨prep, hprep⟩ := UnfailingBuffer.prepare_some hok (bytes_to_read_le hle)
        have hdata := prepared hok (bytes_to_read_le hle) hprep
        rcases hread : dev.read_some s (bytes_to_read b) with ⟨c, s'⟩
        cases c with
        | value bytes =>
          have hround : Round dev delim.bytes (s, b) bytes (s', _) := .mk hno hfull hprep hread
          obtain ⟨hok', hdata', hmax'⟩ := hround.grows hok
          obtain ⟨_, hp', hc'⟩ := hround.resume hok
          obtain ⟨hne, S', rfl, h'⟩ := h.nonempty hask hread
          have hlen : S'.length < fuel := by
            have := List.length_pos_iff.2 hne
            rw [List.length_append] at hf
            omega
          obtain ⟨r, hr, href⟩ := ih hok' hp' hc' h' hlen
          rw [hdata', hmax', List.append_assoc] at href
          refine ⟨r, ?_, href⟩
          simp only [readUntilLoop, hs, if_neg hfull, hprep, hread]
          exact hr
        | error ec =>
          obtain ⟨rfl, hE⟩ := h.ended hask hread (by rintro _ ⟨⟩)
          cases hE
          refine ⟨⟨.throws E, s', prep⟩, ?_, ?_⟩
          · simp only [readUntilLoop, hs, if_neg hfull, hprep, hread]
          · rw [hdata, List.append_nil]
            exact .of_failed hno (by omega)
        | stopped =>
          obtain ⟨_, hE⟩ := h.ended hask hread (by rintro _ ⟨⟩)
          cases hE

/-- A device that delivers in pieces of at least one byte makes no empty read. -/
theorem Delivers.fed {x : σ × β} (h : Delivers dev E x.1 S) (hok : Ok x.2) : Fed dev d x := by
  intro y z bytes hxy hr
  induction hxy using Relation.ReflTransGen.head_induction_on generalizing S with
  | refl =>
    cases hr with
    | mk _ hne _ hread =>
      exact (h.nonempty (le_bytes_to_read (size_le hok) hne) hread).1
  | head hstep _ ih =>
    obtain ⟨bytes', hstep⟩ := hstep
    have hok' := (hstep.grows hok).1
    cases hstep with
    | mk _ hne _ hread =>
      obtain ⟨_, S', _, h'⟩ := h.nonempty (le_bytes_to_read (size_le hok) hne) hread
      exact ih h' hok'

/-- Both forms, of either delimiter, find what the reference search finds, however the stream is
cut into pieces. -/
theorem read_until_reference (hd : delim.bytes ≠ []) (hok : Ok b) (h : Delivers dev E s S)
    (hf : S.length < fuel) :
    ∃ r, read_until dev delim fuel s b = some r ∧
      Reference delim.bytes (data b ++ S) E (max_size b) r.outcome (data r.buffer) ∧
      (async_read_until dev delim fuel s b).completions = r.outcome.completions ∧
      (async_read_until dev delim fuel s b).read_state = none ∧
      (async_read_until dev delim fuel s b).buffer = r.buffer := by
  have h₀ : Clear delim.bytes (data b) 0 := clear_zero hd
  obtain ⟨r, hr, href⟩ := loop_reference hd hok (Nat.zero_le _) h₀ h hf
  have hm := matches_of_loop hd hok (Nat.zero_le _) h₀ (h.fed (x := (s, b)) hok) hr
  rw [← async_eq hd] at hm
  exact ⟨r, (read_until_eq hd s b).trans hr, href, hm.completions, hm.read_state, hm.buffer⟩

end

/-- A device that delivers one byte at a time. -/
def bytewise : InputStreamDevice (List UInt8) where
  read_some s n :=
    match s with
    | [] => (.error (.system 0), [])
    | c :: s => (.value ([c].take n), s)
  length_le s n bytes h := by
    cases s with
    | nil => cases h
    | cons c s =>
      cases h
      exact List.length_take_le ..

theorem bytewise_delivers (S : List UInt8) : Delivers bytewise (.system 0) S S := by
  induction S with
  | nil => exact .fails fun n _ => rfl
  | cons c S ih =>
    refine .piece (fun _ => 1) (fun _ => S) nofun (fun n hn => ⟨Nat.one_pos, hn, ?_⟩) fun _ _ => ih
    cases n with
    | zero => cases hn
    | succ n => simp [bytewise]

theorem read_until_reference_bytewise :
    ∃ r, read_until bytewise (.string [13, 10]) 4 [97, 13, 10] ({} : FlatMemory) = some r ∧
      Reference [13, 10] [97, 13, 10] (.system 0) (Word.modulus - 1) r.outcome (data r.buffer) := by
  have hok : Ok ({} : FlatMemory) := FlatMemory.Ok.empty
  obtain ⟨r, hr, href, _⟩ := read_until_reference
    (show (Delim.string [13, 10]).bytes ≠ [] by decide) hok (bytewise_delivers [97, 13, 10])
    (show [97, 13, 10].length < 4 by decide)
  exact ⟨r, hr, href⟩

end Coio.Io
