import Coio.FlatBuffer.Refinement

namespace Coio.FlatBuffer
set_option autoImplicit true

/-- A `prepare` that fits into the block asks for no more than `max_size()` allows. -/
def World.Careful (w : World ι A) : Act ι A → Prop
  | .prepare i n _ => ∀ b, w.objects i = some b → n ≠ 0 → n ≤ b.end_ - b.size → b.size + n ≤ b.max_
  | _ => True

variable [DecidableEq A] {h : Memory A} {b : Buffer A}

/-- Only a `prepare` that does not fit into the block consults `max_size()`. -/
theorem prepare_throws (v : Valid h b) (w : Within b) (hr : prepare o n h b = some r) :
    r.thrown = some .length_error ↔ b.max_ < b.size + n ∧ (n ≠ 0 → b.end_ - b.size < n) := by
  have hsize := v.size_eq
  have hle := v.size_le
  have hmax := v.size_le_max w
  have hin := v.in_le
  have hout := v.out_le
  have hlast := v.last_le
  have hsome := v.isSome_iff
  rw [prepare] at hr
  by_cases h₀ : n = 0
  · rw [if_pos h₀] at hr
    cases hr
    simp only [reduceCtorEq, false_iff]
    omega
  rw [if_neg h₀] at hr
  by_cases h₁ : b.data_.isSome ∧ n ≤ Word.sub b.end_ b.out_
  · have hroom := h₁.2
    rw [Word.sub_of_le (by omega)] at hroom
    rw [if_pos h₁] at hr
    cases hr
    simp only [reduceCtorEq, false_iff]
    omega
  rw [if_neg h₁] at hr
  by_cases h₂ : b.data_.isSome ∧ n ≤ Word.sub b.end_ b.size
  · have hroom := h₂.2
    rw [Word.sub_of_le hle] at hroom
    simp only [if_pos h₂] at hr
    obtain ⟨h', -, rfl⟩ := Option.map_eq_some_iff.1 hr
    simp only [reduceCtorEq, false_iff]
    omega
  have hfull : b.end_ - b.size < n := by
    rw [Word.sub_of_le hle, hsome] at h₂
    omega
  simp only [if_neg h₂, Word.sub_of_le hmax] at hr
  by_cases h₃ : b.max_ - b.size < n
  · rw [if_pos h₃] at hr
    cases hr
    simp only [true_iff]
    omega
  rw [if_neg h₃] at hr
  have hthrown : r.thrown ≠ some .length_error := by
    cases o with
    | bad_alloc =>
      cases hr
      simp
    | block p junk =>
      obtain ⟨h', -, hr⟩ := Option.bind_eq_some_iff.1 hr
      obtain ⟨⟨h'', b'⟩, -, rfl⟩ := Option.map_eq_some_iff.1 hr
      simp
  simp only [hthrown, false_iff]
  omega

/-- A `prepare` that fits into the block does not reallocate. -/
theorem prepare_in_place (v : Valid h b) (hr : prepare o n h b = some r)
    (hn : n ≤ b.end_ - b.size) : r.buffer.data_ = b.data_ := by
  have hle := v.size_le
  have hsome := v.isSome_iff
  rw [prepare] at hr
  by_cases h₀ : n = 0
  · rw [if_pos h₀] at hr
    cases hr
    rfl
  rw [if_neg h₀] at hr
  by_cases h₁ : b.data_.isSome ∧ n ≤ Word.sub b.end_ b.out_
  · rw [if_pos h₁] at hr
    cases hr
    rfl
  rw [if_neg h₁] at hr
  have h₂ : b.data_.isSome ∧ n ≤ Word.sub b.end_ b.size := by
    rw [Word.sub_of_le hle, hsome]
    omega
  simp only [if_pos h₂] at hr
  obtain ⟨h', -, rfl⟩ := Option.map_eq_some_iff.1 hr
  rfl

/-- A block that `prepare` reallocates has room for the readable bytes and those it hands out. -/
theorem prepare_block (v : Valid h b) (w : Within b) (ho : o.Fits h)
    (hr : prepare o n h b = some r) (hd : r.buffer.data_ ≠ b.data_) :
    ∃ p k, r.buffer.data_ = some p ∧ r.heap p = some k ∧ b.size + n ≤ k.cells.length := by
  obtain ⟨r', hr', hs, hsame, -⟩ := prepare_spec (n := n) v w ho
  obtain rfl := Option.some.inj (hr.symm.trans hr')
  have hroom : ¬ n ≤ b.end_ - b.size := fun hn => hd (prepare_in_place v hr hn)
  have hok : ¬ (r.thrown ≠ none ∨ n = 0) := fun hn => hd (congrArg Buffer.data_ (hsame hn).2)
  obtain ⟨ht, h₀⟩ := not_or.1 hok
  have hthrown : r.thrown = none := not_not.1 ht
  have hask : b.size + n ≤ b.max_ := by
    have hiff := prepare_throws v w hr
    rw [hthrown] at hiff
    by_contra hgt
    cases hiff.2 ⟨by omega, fun _ => by omega⟩
  obtain ⟨hsafe, hp⟩ := hs fun _ => hask
  have hprep := hp hthrown h₀
  obtain ⟨p, hp⟩ := Option.ne_none_iff_exists'.1 hprep.writable
  obtain ⟨cs, hcs, hlen⟩ := hsafe.valid.block p hp
  refine ⟨p, _, hp, hcs, ?_⟩
  have hsize : r.buffer.size = b.size := by
    rw [← hsafe.valid.length_readable_eq_size, hprep.readable, v.length_readable_eq_size]
  have hout := hsafe.valid.size_eq
  have hfit := hprep.room
  show b.size + n ≤ cs.length
  omega

/-- The check is right exactly when the `prepare` is careful. -/
theorem prepare_throws_iff (v : Valid h b) (w : Within b) (hr : prepare o n h b = some r) :
    (r.thrown = some .length_error ↔ b.max_ < b.size + n) ↔
      (n ≠ 0 → n ≤ b.end_ - b.size → b.size + n ≤ b.max_) := by
  rw [prepare_throws v w hr]
  omega

variable [DecidableEq ι] {w : World ι A} {T : Traits A}

/-- What the program does while every action meets a condition. -/
inductive World.RunsTo (T : Traits A) (C : World ι A → Act ι A → Prop) : World ι A → Prop
  | nil : RunsTo T C {}
  | step : RunsTo T C u → u.Admits T a → C u a → u.exec T a = some o → RunsTo T C o.world

/-- Careful actions ask for no more than `max_size()` allows. -/
theorem World.Careful.bounded (hw : w.Valid) (hc : w.Careful a) (ha : w.Admits T a)
    (he : w.exec T a = some o) : w.Bounded a o.thrown := by
  cases a with
  | prepare i n ans =>
    cases ht : o.thrown with
    | some e => trivial
    | none =>
      intro b hi
      obtain ⟨⟨c, hc'⟩, -, hans⟩ := ha
      obtain rfl := Option.some.inj (hi.symm.trans hc')
      have v := hw.valid i b hi
      have hin := hw.within i b hi
      obtain ⟨r, hr, -⟩ := prepare_spec (n := n) v hin hans
      have hput : w.exec T (.prepare i n ans) = some (w.put i r) := World.exec_call hi hr
      rw [hput, Option.some.injEq] at he
      subst he
      have hthrown : r.thrown = none := ht
      have hiff := (prepare_throws_iff v hin hr).2 (hc b hi)
      rw [hthrown] at hiff
      by_contra hgt
      cases hiff.2 (by omega)
  | _ => trivial

theorem World.RunsTo.run (h : World.RunsTo T World.Careful w) : ∃ tr, World.Run T tr w := by
  induction h with
  | nil => exact ⟨[], .nil⟩
  | step _ ha hc he ih =>
    obtain ⟨tr, hr⟩ := ih
    exact ⟨_, hr.snoc ha he (hc.bounded hr.refines.1 ha he)⟩

/-- As long as every `prepare` that fits into its block respects `max_size()`, the readable bytes
do; such a `prepare` is also exactly one that checks the limit as it should, and a `prepare` that
reallocates gets a block for all it hands out. -/
theorem flat_buffer_limit (h : World.RunsTo T World.Careful w) :
    (∀ i b, w.objects i = some b → b.size ≤ b.max_) ∧
    ∀ i b n ans, w.objects i = some b → w.Admits T (.prepare i n ans) →
      ∃ r, prepare ans n w.heap b = some r ∧
        ((r.thrown = some .length_error ↔ b.max_ < b.size + n) ↔ w.Careful (.prepare i n ans)) ∧
        (r.buffer.data_ ≠ b.data_ → ∃ p k, r.buffer.data_ = some p ∧ r.heap p = some k ∧
          b.size + n ≤ k.cells.length) := by
  obtain ⟨tr, hrun⟩ := h.run
  have hw := hrun.refines.1
  refine ⟨fun i b hi => (hw.valid i b hi).size_le_max (hw.within i b hi), ?_⟩
  intro i b n ans hi ha
  obtain ⟨-, -, hans⟩ := id ha
  have v := hw.valid i b hi
  have hin := hw.within i b hi
  obtain ⟨r, hr, hs, hsame, -⟩ := prepare_spec (n := n) v hin hans
  refine ⟨r, hr, ?_, prepare_block v hin hans hr⟩
  rw [prepare_throws_iff v hin hr]
  simp only [World.Careful, hi, Option.some.injEq]
  exact ⟨fun hc c hb => hb ▸ hc, fun hc => hc b rfl⟩

/-- A byte written and a prepared rest of the block that `max_size()` has no room for. -/
theorem flat_buffer_limit_small : ∃ w : World Unit Unit,
    World.RunsTo {} World.Careful w ∧ ∀ i b, w.objects i = some b → b.size ≤ b.max_ := by
  have h₁ := (World.RunsTo.nil (T := {}) (C := World.Careful)).step (ι := Unit) (A := Unit)
    (a := .construct () () 16) ⟨rfl, by decide⟩ trivial rfl
  have h₂ := h₁.step (a := .prepare () 1 (.block 0 fun _ => 0)) ⟨⟨_, rfl⟩, by decide, rfl⟩
    (fun b hb => by cases hb; decide) rfl
  have h₃ := h₂.step (a := .commit () 1) ⟨⟨_, rfl⟩, by decide⟩ trivial rfl
  exact ⟨_, h₃, (flat_buffer_limit h₃).1⟩

/-- A block of 512 bytes is handed out whatever `max_size()` is, and then filled. -/
theorem flat_buffer_exceeds_limit : ¬ ∀ w : World Unit Unit,
    World.RunsTo {} (fun _ _ => True) w → ∀ i b, w.objects i = some b → b.size ≤ b.max_ := by
  intro h
  have h₁ := (World.RunsTo.nil (T := {}) (C := fun _ _ => True)).step (ι := Unit) (A := Unit)
    (a := .construct () () 16) ⟨rfl, by decide⟩ trivial rfl
  have h₂ := h₁.step (a := .prepare () 1 (.block 0 fun _ => 0)) ⟨⟨_, rfl⟩, by decide, rfl⟩
    trivial rfl
  have h₃ := h₂.step (a := .prepare () 100 .bad_alloc) ⟨⟨_, rfl⟩, by decide, trivial⟩ trivial rfl
  have h₄ := h₃.step (a := .commit () 100) ⟨⟨_, rfl⟩, by decide⟩ trivial rfl
  have hle := h _ h₄ () _ rfl
  exact absurd hle (by decide)

end Coio.FlatBuffer
