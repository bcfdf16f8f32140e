import Coio.Io.Rounds
import Mathlib.Logic.Relation

namespace Coio.Io
open DynamicBuffer LawfulDynamicBuffer Search Relation
set_option autoImplicit true

theorem le_bytes_to_read [DynamicBuffer β] {b : β} (hle : size b ≤ max_size b)
    (hne : size b ≠ max_size b) : 0 < bytes_to_read b := by
  have : Word.sub (max_size b) (size b) = max_size b - size b := Word.sub_of_le hle
  unfold bytes_to_read
  omega

theorem bytes_to_read_le [DynamicBuffer β] {b : β} (hle : size b ≤ max_size b) :
    size b + bytes_to_read b ≤ max_size b := by
  have : Word.sub (max_size b) (size b) = max_size b - size b := Word.sub_of_le hle
  unfold bytes_to_read
  omega

section Run

variable [DynamicBuffer β] {dev : InputStreamDevice σ}

theorem run_done {st : State σ β} (h : st.read_state = none) : run dev delim f st = st := by
  cases f with
  | zero => rfl
  | succ f => simp only [run, deliver, h, Option.map_none]

theorem run_succ {st : State σ β} (h : deliver dev delim st = some st') :
    run dev delim (f + 1) st = run dev delim f st' := by
  simp only [run, h]

/-- An operation that has ended does nothing more. -/
theorem run_stable {st : State σ β} (h : (run dev delim f st).read_state = none) (hle : f ≤ g) :
    run dev delim g st = run dev delim f st := by
  induction f generalizing g st with
  | zero => exact run_done h
  | succ f ih =>
    cases g with
    | zero => omega
    | succ g =>
      cases hd : deliver dev delim st with
      | none => simp only [run, hd]
      | some st' =>
        rw [run_succ hd] at h ⊢
        rw [run_succ hd]
        exact ih h (by omega)

/-- No read that the operation makes delivers zero bytes. -/
def Fed (dev : InputStreamDevice σ) (d : List UInt8) (x : σ × β) : Prop :=
  ∀ y z bytes, ReflTransGen (fun u v => ∃ bytes, Round dev d u bytes v) x y →
    Round dev d y bytes z → bytes ≠ []

theorem Fed.head {x y : σ × β} (h : Fed dev d x) (hr : Round dev d x bytes y) : Fed dev d y :=
  fun _ _ _ hyz => h _ _ _ (.head ⟨bytes, hr⟩ hyz)

theorem Round.unique {x : σ × β} (h : Round dev d x bytes y) (h' : Round dev d x bytes' y') :
    bytes = bytes' ∧ y = y' := by
  cases h with
  | mk h₁ h₂ h₃ h₄ =>
    cases h' with
    | mk h₁' h₂' h₃' h₄' =>
      rw [h₃, Option.some.injEq] at h₃'
      rw [h₄, Prod.mk.injEq, Completion.value.injEq] at h₄'
      obtain ⟨rfl, rfl⟩ := h₄'
      subst h₃'
      exact ⟨rfl, rfl⟩

theorem async_eq (hd : delim.bytes ≠ []) (s : σ) (b : β) :
    async_read_until dev delim f s b =
      run dev delim f (search_and_read delim (between 0 s b)) := by
  rw [async_read_until, start_eq hd]
  rfl

end Run

section Forms

variable [DynamicBuffer β] [LawfulDynamicBuffer β] {dev : InputStreamDevice σ} {b : β}

/-- What a round leaves of the buffer. -/
theorem Round.grows (hok : Ok b) (h : Round dev d (s, b) bytes (s', b')) :
    Ok b' ∧ data b' = data b ++ bytes ∧ max_size b' = max_size b := by
  cases h with
  | mk hno hne hprep hread =>
    have hlen := dev.length_le _ _ _ (congrArg Prod.fst hread)
    exact committed hok (bytes_to_read_le (size_le hok)) hprep hlen

/-- The resume position is good for the next round. -/
theorem Round.resume (hok : Ok b) (h : Round dev d (s, b) bytes (s', b')) :
    Ok b' ∧ (data b).length ≤ (data b').length ∧ Clear d (data b') (data b).length := by
  obtain ⟨hok', hdata, _⟩ := h.grows hok
  have hpre : data b <+: data b' := hdata ▸ List.prefix_append _ _
  cases h with
  | mk hno hne hprep hread =>
    have hclear : Clear d (data b) (data b).length := fun p _ => hno p
    exact ⟨hok', hpre.length_le, hclear.of_initial hpre (Nat.le_refl _)⟩

variable {delim : Delim}

/-- The end of the synchronous form is the end of the asynchronous one. -/
theorem matches_of_loop (hd : delim.bytes ≠ []) (hok : Ok b) (hp : pos ≤ (data b).length)
    (hc : Clear delim.bytes (data b) pos) (hfed : Fed dev delim.bytes (s, b))
    (hl : readUntilLoop dev delim.search f pos s b = some r) :
    Matches r (run dev delim f (search_and_read delim (between pos s b))) := by
  induction f generalizing pos s b with
  | zero => cases hl
  | succ f ih =>
    cases roundCase dev hd hp hc s with
    | ends r' hl' hm _ _ =>
      rw [hl', Option.some.injEq] at hl
      rw [← hl, run_done hm.read_state]
      exact hm
    | fails r' st hl' _ _ hdel hm _ _ =>
      rw [hl', Option.some.injEq] at hl
      rw [← hl, run_succ hdel, run_done hm.read_state]
      exact hm
    | reads bytes s' b' st hround hl' _ _ hdel hne _ =>
      rw [hl'] at hl
      obtain ⟨hok', hp', hc'⟩ := hround.resume hok
      rw [run_succ hdel, hne (hfed _ _ _ .refl hround)]
      exact ih hok' hp' hc' (hfed.head hround) hl

/-- The end of the asynchronous form is the end of the synchronous one. -/
theorem loop_of_run (hd : delim.bytes ≠ []) (hok : Ok b) (hp : pos ≤ (data b).length)
    (hc : Clear delim.bytes (data b) pos) (hfed : Fed dev delim.bytes (s, b))
    (hr : (run dev delim f (search_and_read delim (between pos s b))).read_state = none) :
    ∃ r, readUntilLoop dev delim.search (f + 1) pos s b = some r := by
  induction f generalizing pos s b with
  | zero =>
    cases roundCase dev hd hp hc s with
    | ends r hl => exact ⟨r, hl 0⟩
    | fails r st hl => exact ⟨r, hl 0⟩
    | reads bytes s' b' st _ _ hread => exact absurd hr hread
  | succ f ih =>
    cases roundCase dev hd hp hc s with
    | ends r hl => exact ⟨r, hl _⟩
    | fails r st hl => exact ⟨r, hl _⟩
    | reads bytes s' b' st hround hl' _ _ hdel hne _ =>
      obtain ⟨hok', hp', hc'⟩ := hround.resume hok
      rw [run_succ hdel, hne (hfed _ _ _ .refl hround)] at hr
      obtain ⟨r, hr⟩ := ih hok' hp' hc' (hfed.head hround) hr
      exact ⟨r, (hl' _).trans hr⟩

theorem loop_ne_zero (hd : delim.bytes ≠ []) (hok : Ok b) (hp : pos ≤ (data b).length)
    (hc : Clear delim.bytes (data b) pos)
    (hl : readUntilLoop dev delim.search f pos s b = some r) : r.outcome ≠ .returns 0 := by
  induction f generalizing pos s b with
  | zero => cases hl
  | succ f ih =>
    cases roundCase dev hd hp hc s with
    | ends r' hl' _ _ hz =>
      rw [hl', Option.some.injEq] at hl
      exact hl ▸ hz
    | fails r' st hl' _ _ _ _ _ hz =>
      rw [hl', Option.some.injEq] at hl
      exact hl ▸ hz
    | reads bytes s' b' st hround hl' =>
      obtain ⟨hok', hp', hc'⟩ := hround.resume hok
      rw [hl'] at hl
      exact ih hok' hp' hc' hl

/-- A read of zero bytes completes the asynchronous form as if the delimiter ended at 0. -/
theorem run_of_empty_read {x y z : σ × β} (hd : delim.bytes ≠ [])
    (hxy : ReflTransGen (fun u v => ∃ bytes, Round dev delim.bytes u bytes v) x y)
    (hz : Round dev delim.bytes y [] z) (hok : Ok x.2) (hp : pos ≤ (data x.2).length)
    (hc : Clear delim.bytes (data x.2) pos) :
    ∃ f, (run dev delim f (search_and_read delim (between pos x.1 x.2))).completions = [(none, 0)] ∧
      (run dev delim f (search_and_read delim (between pos x.1 x.2))).read_state = none := by
  induction hxy using ReflTransGen.head_induction_on generalizing pos with
  | refl =>
    cases roundCase dev hd hp hc y.1 with
    | ends r _ _ hno => exact absurd hz (hno _ _)
    | fails r st _ _ _ _ _ hno => exact absurd hz (hno _ _)
    | reads bytes s' b' st hround _ _ _ hdel _ hnil =>
      obtain ⟨hcomp, hdone⟩ := hnil (hround.unique hz).1
      refine ⟨1, ?_⟩
      rw [run_succ hdel, run_done hdone]
      exact ⟨hcomp, hdone⟩
  | @head u v hstep _ ih =>
    obtain ⟨bytes, hstep⟩ := hstep
    cases roundCase dev hd hp hc u.1 with
    | ends r _ _ hno => exact absurd hstep (hno _ _)
    | fails r st _ _ _ _ _ hno => exact absurd hstep (hno _ _)
    | reads bytes' s' b' st hround _ _ _ hdel hne hnil =>
      obtain ⟨rfl, rfl⟩ := hround.unique hstep
      by_cases hempty : bytes' = []
      · obtain ⟨hcomp, hdone⟩ := hnil hempty
        refine ⟨1, ?_⟩
        rw [run_succ hdel, run_done hdone]
        exact ⟨hcomp, hdone⟩
      · obtain ⟨hok', hp', hc'⟩ := hround.resume hok
        obtain ⟨f, hf⟩ := ih hok' hp' hc'
        refine ⟨f + 1, ?_⟩
        rw [run_succ hdel, hne hempty]
        exact hf

/-- The asynchronous form completes its receiver once, with the code and the number given. -/
def Completes (dev : InputStreamDevice σ) (delim : Delim) (s : σ) (b : β)
    (c : Option ErrorCode × Nat) (b' : β) : Prop :=
  ∃ f, (async_read_until dev delim f s b).completions = [c] ∧
    (async_read_until dev delim f s b).read_state = none ∧
    (async_read_until dev delim f s b).buffer = b'

/-- The synchronous form ends. -/
def Ends (dev : InputStreamDevice σ) (delim : Delim) (s : σ) (b : β) (o : Outcome) (b' : β) :
    Prop :=
  ∃ f s', read_until dev delim f s b = some ⟨o, s', b'⟩

/-- Both forms say the same and leave the same bytes. -/
structure Agree (dev : InputStreamDevice σ) (delim : Delim) (s : σ) (b : β) : Prop where
  returns : ∀ p, (∃ b', Completes dev delim s b (none, p) b') ↔
    ∃ b', Ends dev delim s b (.returns p) b'
  throws : ∀ ec, (∃ b', Completes dev delim s b (some ec, 0) b') ↔
    ∃ b', Ends dev delim s b (.throws ec) b'
  committed : ∀ c o b₁ b₂, Completes dev delim s b c b₁ → Ends dev delim s b o b₂ →
    data b₁ = data b₂

theorem Completes.ends (hd : delim.bytes ≠ []) (hok : Ok b) (hfed : Fed dev delim.bytes (s, b))
    (hc : Completes dev delim s b c b') : ∃ o, o.completions = [c] ∧ Ends dev delim s b o b' := by
  obtain ⟨f, hcomp, hdone, hbuf⟩ := hc
  rw [async_eq hd] at hcomp hdone hbuf
  have h₀ : Clear delim.bytes (data b) 0 := clear_zero hd
  obtain ⟨r, hr⟩ := loop_of_run hd hok (Nat.zero_le _) h₀ hfed hdone
  have hm := matches_of_loop hd hok (Nat.zero_le _) h₀ hfed hr
  rw [run_stable hdone (Nat.le_succ f)] at hm
  refine ⟨r.outcome, hm.completions.symm.trans hcomp, f + 1, r.device, ?_⟩
  rw [read_until_eq hd, hr, ← hbuf, hm.buffer]

theorem Ends.matches (hd : delim.bytes ≠ []) (hok : Ok b) (hfed : Fed dev delim.bytes (s, b))
    (he : Ends dev delim s b o b') :
    ∃ f, (async_read_until dev delim f s b).completions = o.completions ∧
      (async_read_until dev delim f s b).read_state = none ∧
      (async_read_until dev delim f s b).buffer = b' := by
  obtain ⟨f, s', hf⟩ := he
  rw [read_until_eq hd] at hf
  have hm := matches_of_loop hd hok (Nat.zero_le _) (clear_zero hd) hfed hf
  exact ⟨f, by rw [async_eq hd]; exact hm.completions, by rw [async_eq hd]; exact hm.read_state,
    by rw [async_eq hd]; exact hm.buffer⟩

theorem completions_eq {o : Outcome} (h : o.completions = [(none, p)]) : o = .returns p := by
  cases o with
  | returns n =>
    cases h
    rfl
  | throws ec => cases h
  | length_error => cases h

theorem completions_eq_error {o : Outcome} (h : o.completions = [(some ec, p)]) :
    o = .throws ec := by
  cases o with
  | returns n => cases h
  | throws ec =>
    cases h
    rfl
  | length_error => cases h

theorem agree_of_fed (hd : delim.bytes ≠ []) (hok : Ok b) (hfed : Fed dev delim.bytes (s, b)) :
    Agree dev delim s b where
  returns p := by
    constructor
    · rintro ⟨b', hc⟩
      obtain ⟨o, ho, he⟩ := hc.ends hd hok hfed
      exact ⟨b', completions_eq ho ▸ he⟩
    · rintro ⟨b', he⟩
      exact ⟨b', he.matches hd hok hfed⟩
  throws ec := by
    constructor
    · rintro ⟨b', hc⟩
      obtain ⟨o, ho, he⟩ := hc.ends hd hok hfed
      exact ⟨b', completions_eq_error ho ▸ he⟩
    · rintro ⟨b', he⟩
      exact ⟨b', he.matches hd hok hfed⟩
  committed c o b₁ b₂ hc he := by
    obtain ⟨f, _, hdone, hbuf⟩ := hc
    obtain ⟨g, _, hdone', hbuf'⟩ := he.matches hd hok hfed
    have hsame : async_read_until dev delim f s b = async_read_until dev delim g s b := by
      rcases Nat.le_total f g with hfg | hgf
      · exact (run_stable hdone hfg).symm
      · exact run_stable hdone' hgf
    rw [← hbuf, ← hbuf', hsame]

/-- The forms do not agree on a device that delivers zero bytes. -/
theorem not_agree_of_empty_read {y z : σ × β} (hd : delim.bytes ≠ []) (hok : Ok b)
    (hxy : ReflTransGen (fun u v => ∃ bytes, Round dev delim.bytes u bytes v) (s, b) y)
    (hz : Round dev delim.bytes y [] z) : ¬ Agree dev delim s b := by
  intro ha
  have h₀ : Clear delim.bytes (data b) 0 := clear_zero hd
  obtain ⟨f, hcomp, hdone⟩ := run_of_empty_read hd hxy hz hok (Nat.zero_le _) h₀
  rw [← async_eq hd] at hcomp hdone
  obtain ⟨b', g, s', he⟩ := (ha.returns 0).1 ⟨_, f, hcomp, hdone, rfl⟩
  rw [read_until_eq hd] at he
  exact loop_ne_zero hd hok (Nat.zero_le _) h₀ he rfl

omit [LawfulDynamicBuffer β] in
/-- With an empty delimiter both forms end at once. -/
theorem agree_of_empty_delim (hd : delim.bytes = []) : Agree dev delim s b := by
  have hdelim : delim = .string [] := by
    cases delim with
    | char c => cases hd
    | string d => exact congrArg Delim.string hd
  subst hdelim
  have hasync (f : Nat) : async_read_until dev (.string []) f s b =
      State.complete { device := s, buffer := b } none 0 := run_done rfl
  have hsync (f : Nat) : read_until dev (.string []) f s b = some ⟨.returns 0, s, b⟩ := rfl
  have hc : ∀ c b', Completes dev (.string []) s b c b' → c = (none, 0) ∧ b' = b := by
    rintro c b' ⟨f, hcomp, _, hbuf⟩
    rw [hasync] at hcomp hbuf
    cases hcomp
    exact ⟨rfl, hbuf.symm⟩
  have he : ∀ o b', Ends dev (.string []) s b o b' → o = .returns 0 ∧ b' = b := by
    rintro o b' ⟨f, s', hf⟩
    rw [hsync, Option.some.injEq, Ended.mk.injEq] at hf
    exact ⟨hf.1.symm, hf.2.2.symm⟩
  refine ⟨fun p => ⟨?_, ?_⟩, fun ec => ⟨?_, ?_⟩, ?_⟩
  · rintro ⟨b', h⟩
    obtain ⟨hp, _⟩ := hc _ _ h
    cases hp
    exact ⟨b, 0, s, rfl⟩
  · rintro ⟨b', h⟩
    obtain ⟨hp, _⟩ := he _ _ h
    cases hp
    exact ⟨b, 0, rfl, rfl, rfl⟩
  · rintro ⟨b', h⟩
    cases (hc _ _ h).1
  · rintro ⟨b', h⟩
    cases (he _ _ h).1
  · intro c o b₁ b₂ h₁ h₂
    rw [(hc _ _ h₁).2, (he _ _ h₂).2]

/-- The forms agree exactly when no read that the operation makes delivers zero bytes. -/
theorem read_until_agree_iff (hok : Ok b) :
    Agree dev delim s b ↔ ∀ y z bytes,
      ReflTransGen (fun u v => ∃ bytes, Round dev delim.bytes u bytes v) (s, b) y →
      Round dev delim.bytes y bytes z → bytes ≠ [] := by
  by_cases hd : delim.bytes = []
  · refine ⟨fun _ y z bytes _ hr _ => ?_, fun _ => agree_of_empty_delim hd⟩
    cases hr with
    | mk hno => exact hno 0 ⟨Nat.zero_le _, hd ▸ List.nil_suffix⟩
  · refine ⟨fun ha y z bytes hxy hr hnil => ?_, agree_of_fed hd hok⟩
    subst hnil
    exact not_agree_of_empty_read hd hok hxy hr ha

end Forms

theorem FlatMemory.Ok.empty : FlatMemory.Ok {} where
  valid := FlatBuffer.valid_empty (by decide)
  within := Nat.zero_le _
  alone _ _ := rfl

/-- A device that goes through a script and then is at its end. -/
def scripted : InputStreamDevice (List (List UInt8)) where
  read_some s n :=
    match s with
    | [] => (.error (.system 0), [])
    | bytes :: s => (.value (bytes.take n), s)
  length_le s n bytes h := by
    cases s with
    | nil => cases h
    | cons c s =>
      cases h
      exact List.length_take_le ..

theorem scripted_value (h : scripted.read_some s n = (.value bytes, s')) :
    ∃ c, s = c :: s' ∧ bytes = c.take n := by
  cases s with
  | nil => cases h
  | cons c s =>
    cases h
    exact ⟨c, rfl, rfl⟩

section

variable [DynamicBuffer β] [LawfulDynamicBuffer β]

theorem scripted_reached {x y : List (List UInt8) × β}
    (h : ReflTransGen (fun u v => ∃ bytes, Round scripted d u bytes v) x y)
    (hx : Ok x.2 ∧ [] ∉ x.1) : Ok y.2 ∧ [] ∉ y.1 := by
  induction h with
  | refl => exact hx
  | tail _ hround ih =>
    obtain ⟨bytes, hround⟩ := hround
    obtain ⟨hok, -, -⟩ := hround.grows ih.1
    cases hround with
    | mk _ _ _ hread =>
      obtain ⟨c, rfl, -⟩ := scripted_value hread
      exact ⟨hok, fun hmem => ih.2 (List.mem_cons_of_mem c hmem)⟩

/-- A script without an empty read feeds the operation. -/
theorem Fed.scripted {b : β} (hok : Ok b) (hs : [] ∉ s) : Fed scripted d (s, b) := by
  intro y z bytes hxy hr
  obtain ⟨hok', hs'⟩ := scripted_reached hxy ⟨hok, hs⟩
  cases hr with
  | mk _ hne _ hread =>
    obtain ⟨c, rfl, rfl⟩ := scripted_value hread
    have hpos := le_bytes_to_read (size_le hok') hne
    have hc : c ≠ [] := fun h => hs' (by rw [h]; exact List.mem_cons_self)
    rw [ne_eq, List.take_eq_nil_iff]
    rintro (h | h)
    · exact Nat.ne_of_gt hpos h
    · exact hc h

end

theorem read_until_agree_iff_script :
    Agree scripted (.char 10) [[97, 10]] ({} : FlatMemory) := by
  rw [read_until_agree_iff FlatMemory.Ok.empty]
  exact Fed.scripted FlatMemory.Ok.empty (by decide)

/-- A device whose first read delivers zero bytes and whose second one delivers the delimiter. -/
theorem read_until_disagrees : ¬ Agree scripted (.char 10) [[], [97, 10]] ({} : FlatMemory) := by
  have hno : ∀ p, ¬ EndsAt [10] (data ({} : FlatMemory)) p := by
    intro p he
    obtain ⟨h₁, h₂, _⟩ := endsAt_iff.1 he
    have h₃ : p ≤ 0 := h₂
    have h₄ : 1 ≤ p := h₁
    omega
  have hround : Round scripted [10] ([[], [97, 10]], ({} : FlatMemory)) [] _ :=
    .mk hno (by decide) rfl rfl
  have hd : (Delim.char 10).bytes ≠ [] := by decide
  exact not_agree_of_empty_read hd FlatMemory.Ok.empty .refl hround

end Coio.Io
