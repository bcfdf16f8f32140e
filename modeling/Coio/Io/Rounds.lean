import Coio.Io.ReadUntil

namespace Coio.Io
open DynamicBuffer LawfulDynamicBuffer Search
set_option autoImplicit true

/-- What a search with a resume position is for. -/
structure Finds (search : List UInt8 → Nat → Option Nat) (d : List UInt8) : Prop where
  found : pos ≤ t.length → Clear d t pos → search t pos = some p → FirstEnd d t p
  missed : pos ≤ t.length → Clear d t pos → search t pos = none → Clear d t t.length

theorem searchString_finds (hd : d ≠ []) : Finds (searchString d) d := by
  have hpos := List.length_pos_iff.2 hd
  have hstart (pos : Nat) : let start := if d.length - 1 < pos then pos - d.length + 1 else 0
      start + d.length ≤ pos + 1 ∨ start = 0 := by
    simp only
    split <;> omega
  constructor
  · intro pos t p hp hc hs
    simp only [searchString] at hs
    split at hs
    · obtain ⟨i, hi, rfl⟩ := Option.map_eq_some_iff.1 hs
      refine find_some hc (hstart pos) ?_ hi
      split <;> omega
    · cases hs
  · intro pos t hp hc hs
    simp only [searchString] at hs
    split at hs
    · refine find_none hc (hstart pos) ?_ (Option.map_eq_none_iff.1 hs)
      split <;> omega
    · intro q hq he
      have := (endsAt_iff.1 he).1
      omega

theorem startsAt_singleton (c : UInt8) (t : List UInt8) (i : Nat) :
    startsAt [c] t i = decide (t[i]? = some c) := by
  refine decide_eq_decide.2 ?_
  rw [List.length_singleton, List.take_one, List.head?_drop]
  cases t[i]? with
  | none => simp
  | some a => simp

/-- A string of one character is searched for as the character. -/
theorem searchChar_eq (c : UInt8) : searchChar c = searchString [c] := by
  funext t pos
  have hstart : (if 1 - 1 < pos then pos - 1 + 1 else 0) = pos := by split <;> omega
  simp only [searchChar, searchString, Search.find, List.length_singleton, hstart]
  by_cases hl : 1 ≤ t.length
  · have hn : t.length - 1 + 1 - pos = t.length - pos := by omega
    rw [if_pos hl, hn]
    congr 2
    funext i
    exact (startsAt_singleton c t i).symm
  · have h₀ : t.length - pos = 0 := by omega
    rw [if_neg hl, h₀]
    rfl

theorem Delim.search_eq (delim : Delim) : delim.search = searchString delim.bytes := by
  cases delim with
  | char c => exact searchChar_eq c
  | string d => rfl

theorem Delim.finds (delim : Delim) (hd : delim.bytes ≠ []) : Finds delim.search delim.bytes :=
  delim.search_eq ▸ searchString_finds hd

section Loop

variable [DynamicBuffer β] {dev : InputStreamDevice σ}

/-- Every overload of the synchronous form is the one loop. -/
theorem read_until_eq (hd : delim.bytes ≠ []) (s : σ) (b : β) :
    read_until dev delim fuel s b = readUntilLoop dev delim.search fuel 0 s b := by
  cases delim with
  | char c => rfl
  | string d =>
    match d with
    | [] => exact absurd rfl hd
    | [c] =>
      show readUntilLoop dev (searchChar c) fuel 0 s b = _
      rw [searchChar_eq]
      rfl
    | _ :: _ :: _ => rfl

theorem start_eq (hd : delim.bytes ≠ []) (st : State σ β) :
    start delim st = search_and_read delim st := by
  cases delim with
  | char c => rfl
  | string d =>
    cases d with
    | nil => exact absurd rfl hd
    | cons c d => rfl

/-- A round of the operation that reads: the delimiter is not there, the buffer is not full and the
device delivers bytes, perhaps none. -/
inductive Round (dev : InputStreamDevice σ) (d : List UInt8) :
    σ × β → List UInt8 → σ × β → Prop
  | mk : (∀ p, ¬ EndsAt d (data b) p) → size b ≠ max_size b →
      prepare b (bytes_to_read b) = some prep →
      dev.read_some s (bytes_to_read b) = (.value bytes, s') →
      Round dev d (s, b) bytes (s', commit (fill prep bytes) bytes.length)

/-- What a call of the outer receiver says of the end of the synchronous form. -/
def Outcome.completions : Outcome → List (Option ErrorCode × Nat)
  | .returns n => [(none, n)]
  | .throws ec => [(some ec, 0)]
  | .length_error => []

/-- The asynchronous form has ended as the synchronous one. -/
structure Matches (r : Ended σ β) (st : State σ β) : Prop where
  completions : st.completions = r.outcome.completions
  terminated : st.terminated = decide (r.outcome = .length_error)
  read_state : st.read_state = none
  buffer : st.buffer = r.buffer
  device : st.device = r.device

/-- The asynchronous form between two reads. -/
def between (pos : Nat) (s : σ) (b : β) : State σ β :=
  { device := s, buffer := b, search_pos := pos }

/-- One round of both forms. -/
inductive RoundCase (dev : InputStreamDevice σ) (delim : Delim) (pos : Nat) (s : σ) (b : β) : Prop
  | ends (r : Ended σ β) (hl : ∀ f, readUntilLoop dev delim.search (f + 1) pos s b = some r)
      (hm : Matches r (search_and_read delim (between pos s b)))
      (hno : ∀ bytes y, ¬ Round dev delim.bytes (s, b) bytes y) (hz : r.outcome ≠ .returns 0)
  | fails (r : Ended σ β) (st : State σ β)
      (hl : ∀ f, readUntilLoop dev delim.search (f + 1) pos s b = some r)
      (hr : (search_and_read delim (between pos s b)).read_state ≠ none)
      (hc : (search_and_read delim (between pos s b)).completions = [])
      (hd : deliver dev delim (search_and_read delim (between pos s b)) = some st)
      (hm : Matches r st)
      (hno : ∀ bytes y, ¬ Round dev delim.bytes (s, b) bytes y) (hz : r.outcome ≠ .returns 0)
  | reads (bytes : List UInt8) (s' : σ) (b' : β) (st : State σ β)
      (hround : Round dev delim.bytes (s, b) bytes (s', b'))
      (hl : ∀ f, readUntilLoop dev delim.search (f + 1) pos s b =
        readUntilLoop dev delim.search f (data b).length s' b')
      (hr : (search_and_read delim (between pos s b)).read_state ≠ none)
      (hc : (search_and_read delim (between pos s b)).completions = [])
      (hd : deliver dev delim (search_and_read delim (between pos s b)) = some st)
      (hne : bytes ≠ [] → st = search_and_read delim (between (data b).length s' b'))
      (hnil : bytes = [] → st.completions = [(none, 0)] ∧ st.read_state = none)

theorem roundCase (dev : InputStreamDevice σ) {b : β} (hd : delim.bytes ≠ [])
    (hp : pos ≤ (data b).length) (hc : Clear delim.bytes (data b) pos) (s : σ) :
    RoundCase dev delim pos s b := by
  have hf := delim.finds hd
  cases hs : delim.search (data b) pos with
  | some p =>
    have hpos : 0 < p := by
      have := (hf.found hp hc hs).length_le
      have := List.length_pos_iff.2 hd
      omega
    have ha : search_and_read delim (between pos s b) = (between pos s b).complete none p := by
      simp only [search_and_read, search, between, hs, if_pos hpos]
    refine .ends ⟨.returns p, s, b⟩ (fun f => ?_) ?_ ?_ ?_
    · simp only [readUntilLoop, hs]
    · rw [ha]
      exact ⟨rfl, rfl, rfl, rfl, rfl⟩
    · rintro bytes y ⟨hno, _, _, _⟩
      exact hno p (hf.found hp hc hs).1
    · simp only [ne_eq, Outcome.returns.injEq]
      omega
  | none =>
    have hclear := hf.missed hp hc hs
    have hnone : ∀ p, ¬ EndsAt delim.bytes (data b) p := fun p he => hclear p he.1 he
    by_cases hfull : size b = max_size b
    · have ha : search_and_read delim (between pos s b) =
          (between (data b).length s b).complete (some .not_found) 0 := by
        simp only [search_and_read, search, between, hs, Nat.lt_irrefl, if_false, if_pos hfull]
      refine .ends ⟨.throws .not_found, s, b⟩ (fun f => ?_) ?_ ?_ nofun
      · simp only [readUntilLoop, hs, if_pos hfull]
      · rw [ha]
        exact ⟨rfl, rfl, rfl, rfl, rfl⟩
      · rintro bytes y ⟨_, hsize, _, _⟩
        exact hsize hfull
    · cases hprep : prepare b (bytes_to_read b) with
      | none =>
        have ha : search_and_read delim (between pos s b) =
            { between (data b).length s b with terminated := true } := by
          simp only [search_and_read, search, between, hs, Nat.lt_irrefl, if_false, if_neg hfull,
            do_read, hprep]
        refine .ends ⟨.length_error, s, b⟩ (fun f => ?_) ?_ ?_ nofun
        · simp only [readUntilLoop, hs, if_neg hfull, hprep]
        · rw [ha]
          exact ⟨rfl, rfl, rfl, rfl, rfl⟩
        · rintro bytes y ⟨_, _, hprep', _⟩
          rw [hprep] at hprep'
          cases hprep'
      | some prep =>
        have ha : search_and_read delim (between pos s b) =
            { between (data b).length s prep with read_state := some (bytes_to_read b) } := by
          simp only [search_and_read, search, between, hs, Nat.lt_irrefl, if_false, if_neg hfull,
            do_read, hprep]
        rcases hread : dev.read_some s (bytes_to_read b) with ⟨c, s'⟩
        cases c with
        | value bytes =>
          let st := set_value delim bytes (between (data b).length s' prep)
          refine .reads bytes s' _ st (.mk hnone hfull hprep hread) (fun f => ?_) ?_ ?_ ?_ ?_ ?_
          · simp only [readUntilLoop, hs, if_neg hfull, hprep, hread]
          · simp [ha]
          · rw [ha]
            rfl
          · rw [ha]
            simp only [deliver, Option.map_some, between, hread]
            rfl
          · intro hne
            have hlen : ¬ bytes.length = 0 := by
              rwa [List.length_eq_zero_iff]
            simp only [st, set_value, if_neg hlen]
            rfl
          · intro hnil
            simp [st, hnil, set_value, State.complete, between]
        | error ec =>
          let st := set_error ec (between (data b).length s' prep)
          refine .fails ⟨.throws ec, s', prep⟩ st (fun f => ?_) ?_ ?_ ?_ ?_ ?_ nofun
          · simp only [readUntilLoop, hs, if_neg hfull, hprep, hread]
          · simp [ha]
          · rw [ha]
            rfl
          · rw [ha]
            simp only [deliver, Option.map_some, between, hread]
            rfl
          · exact ⟨rfl, rfl, rfl, rfl, rfl⟩
          · rintro bytes y ⟨_, _, _, hread'⟩
            rw [hread] at hread'
            cases hread'
        | stopped =>
          let st := set_stopped (between (data b).length s' prep)
          refine .fails ⟨.throws .operation_canceled, s', prep⟩ st (fun f => ?_) ?_ ?_ ?_ ?_ ?_
            nofun
          · simp only [readUntilLoop, hs, if_neg hfull, hprep, hread]
          · simp [ha]
          · rw [ha]
            rfl
          · rw [ha]
            simp only [deliver, Option.map_some, between, hread]
            rfl
          · exact ⟨rfl, rfl, rfl, rfl, rfl⟩
          · rintro bytes y ⟨_, _, _, hread'⟩
            rw [hread] at hread'
            cases hread'

end Loop

end Coio.Io
