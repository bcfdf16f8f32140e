import Coio.FlatBuffer.World

namespace Coio.FlatBuffer
open Function (update)
set_option autoImplicit true

variable {w : World ι A} {T : Traits A} {b other : Buffer A}

theorem World.queues_some (hi : w.objects i = some b) :
    w.queues i = some (queue w.heap b) := by
  rw [World.queues, hi, Option.map_some]

theorem World.queues_none (hi : w.objects i = none) : w.queues i = none := by
  rw [World.queues, hi, Option.map_none]

variable [DecidableEq ι]

theorem update_queues (hi : w.objects i = some b) :
    update w.queues i (some (queue w.heap b)) = w.queues := by
  rw [← World.queues_some hi, Function.update_eq_self]

theorem World.steal_queues (w : World ι A) (i j : ι) (other : Buffer A) :
    World.queues { w with
      objects := update (update w.objects i (some other)) j (some (reset other)) } =
    update (update w.queues i (some (queue w.heap other))) j (some {}) := by
  funext k
  simp only [World.queues, Function.update_apply]
  split
  · simp only [Option.map_some, queue, readable_reset, window_reset]
  · split <;> simp only [Option.map_some]

theorem World.exec_call (hi : w.objects i = some b) (hf : f w.heap b = some r) :
    w.call i f = some (w.put i r) := by
  simp only [World.call, hi, Option.bind_some, hf, Option.map_some]

theorem World.exec_modify (hi : w.objects i = some b) :
    w.modify i f = some (w.put i { heap := w.heap, buffer := f b }) := by
  simp only [World.modify, hi, Option.map_some]

variable [DecidableEq A]

/-- What an action of a valid world does: it is defined, keeps the world valid, and has the effect
that the buffers are for. -/
def World.Lands (T : Traits A) (w : World ι A) (a : Act ι A) : Prop :=
  ∃ o, w.exec T a = some o ∧ (w.Bounded a o.thrown →
    o.world.Valid ∧ Queue.Step a o.thrown w.queues o.world.queues)

/-- The result of an operation of one buffer that has the effect asked for. -/
theorem World.Lands.of_safe (hi : w.Slot i b) (hw : w.Valid)
    (he : w.exec T a = some (w.put i r)) (hs : w.Bounded a r.thrown → Safe w.heap b r)
    (hq : w.Bounded a r.thrown → Queue.Step a r.thrown w.queues
      (update w.queues i (some (queue r.heap r.buffer)))) : w.Lands T a := by
  refine ⟨_, he, fun hb => ⟨hi.put_valid hw (hs hb), ?_⟩⟩
  rw [hi.put_queues hw (hs hb)]
  exact hq hb

/-- An operation that throws and leaves its buffer as it was. -/
theorem World.Lands.of_throw (hi : w.objects i = some b) (hw : w.Valid)
    (he : w.exec T a = some (w.put i r)) (hn : r.thrown ≠ none)
    (hu : r.heap = w.heap ∧ r.buffer = b) : w.Lands T a := by
  obtain ⟨e, hne⟩ := Option.ne_none_iff_exists'.1 hn
  obtain ⟨hh, hb⟩ := hu
  refine .of_safe (.inl hi) hw he (fun _ => ?_) fun _ => ?_
  · have hs : Safe w.heap b { heap := w.heap, buffer := b } :=
      .refl (hw.valid i b hi) (hw.within i b hi)
    exact ⟨hh ▸ hb ▸ hs.valid, hb ▸ hs.within, fun q _ _ => by rw [hh], .inl (by rw [hb]),
      fun q hq hq' => absurd (hb ▸ hq) hq'⟩
  · rw [hh, hb, update_queues hi, hne]
    exact .throws

theorem World.Lands.construct (hw : w.Valid) (ha : w.Admits T (.construct i a m)) :
    w.Lands T (.construct i a m) := by
  refine .of_safe (b := { alloc_ := a, max_ := m }) (.inr ⟨ha.1, rfl⟩) hw rfl
    (fun _ => .refl (valid_empty ha.2) (Nat.zero_le _)) fun _ => ?_
  exact .construct (World.queues_none ha.1)

theorem World.Lands.copyConstruct (hw : w.Valid) (ha : w.Admits T (.copyConstruct i j o)) :
    w.Lands T (.copyConstruct i j o) := by
  obtain ⟨hi, ⟨c, hj⟩, ho⟩ := ha
  have hspec := copyConstruct_spec (T := T) (hw.valid j c hj) (hw.within j c hj) ho
  obtain ⟨r, b₀, hr, hb, hs⟩ := hspec
  by_cases he : r.thrown = none
  · refine .of_safe (r := r) (.inr ⟨hi, hb⟩) hw ?_ (fun _ => hs.safe he) fun _ => ?_
    · simp only [World.exec, hj, Option.bind_some, hr, Option.map_some, if_pos he]
    · rw [he, queue, hs.readable he, hs.window he]
      exact .copyConstruct (World.queues_none hi) (World.queues_some hj)
  · refine ⟨{ world := w, thrown := r.thrown }, ?_, fun _ => ⟨hw, ?_⟩⟩
    · simp only [World.exec, hj, Option.bind_some, hr, Option.map_some, if_neg he]
    · obtain ⟨e, he⟩ := Option.ne_none_iff_exists'.1 he
      rw [he]
      exact .throws

theorem World.Lands.moveConstruct (hw : w.Valid) (ha : w.Admits T (.moveConstruct i j)) :
    w.Lands T (.moveConstruct i j) := by
  obtain ⟨hi, c, hj⟩ := ha
  have hij : i ≠ j := by
    rintro rfl
    rw [hi] at hj
    cases hj
  have hnone : ∀ b, w.objects i = some b → b.data_ = none := by
    intro b hb
    rw [hi] at hb
    cases hb
  have he : w.exec T (.moveConstruct i j) = some { world := { w with
      objects := update (update w.objects i (some c)) j (some (reset c)) } } := by
    simp only [World.exec, hj, Option.map_some]
  refine ⟨_, he, fun _ => ⟨hw.steal hnone hj hij, ?_⟩⟩
  rw [World.steal_queues]
  exact .moveConstruct (World.queues_none hi) (World.queues_some hj)

theorem World.Lands.swap (hw : w.Valid) (ha : w.Admits T (.swap i j)) :
    w.Lands T (.swap i j) := by
  obtain ⟨b, c, hi, hj, hp⟩ := ha
  have hsw (x y : Buffer A) (hxy : T.propagate_on_container_swap ∨ x.alloc_ = y.alloc_) :
      swapped T x y = y := by
    by_cases ht : T.propagate_on_container_swap
    · rw [swapped, if_pos ht]
    · have hxy : x.alloc_ = y.alloc_ := hxy.resolve_left ht
      rw [swapped, if_neg ht, hxy]
  have he : w.exec T (.swap i j) =
      some { world := { w with objects := update (update w.objects i (some c)) j (some b) } } := by
    simp only [World.exec, hi, Option.bind_some, hj, Option.map_some, hsw b c hp,
      hsw c b (hp.imp_right Eq.symm)]
  refine ⟨_, he, fun _ => ⟨hw.exchange hi hj, ?_⟩⟩
  · have hq : World.queues { w with objects := update (update w.objects i (some c)) j (some b) } =
        update (update w.queues i (some (queue w.heap c))) j (some (queue w.heap b)) := by
      funext k
      simp only [World.queues, Function.update_apply]
      split <;> [simp only [Option.map_some]; (split <;> simp only [Option.map_some])]
    rw [hq]
    exact .swap (World.queues_some hi) (World.queues_some hj)

theorem World.Lands.copyAssign (hw : w.Valid) (ha : w.Admits T (.copyAssign i j o)) :
    w.Lands T (.copyAssign i j o) := by
  obtain ⟨⟨b, hi⟩, ⟨c, hj⟩, ho⟩ := ha
  by_cases hij : i = j
  · subst hij
    exact ⟨{ world := w }, if_pos rfl, fun _ => ⟨hw, .copyAssign_self⟩⟩
  obtain ⟨r, hr, hs⟩ := copyAssign_spec (T := T) (hw.valid i b hi) (hw.valid j c hj)
    (hw.within j c hj) (hw.apart i j b c hi hj hij) ho
  have he : w.exec T (.copyAssign i j o) = some (w.put i r) := by
    simp only [World.exec, if_neg hij, hj, Option.bind_some]
    exact World.exec_call hi hr
  by_cases hn : r.thrown = none
  · refine .of_safe (.inl hi) hw he (fun _ => hs.safe hn) fun _ => ?_
    rw [hn, queue, hs.readable hn, hs.window hn]
    exact .copyAssign hij (World.queues_some hi) (World.queues_some hj)
  · exact .of_throw hi hw he hn (hs.unchanged hn)

theorem World.Lands.moveAssign (hw : w.Valid) (ha : w.Admits T (.moveAssign i j o)) :
    w.Lands T (.moveAssign i j o) := by
  obtain ⟨⟨b, hi⟩, ⟨c, hj⟩, ho⟩ := ha
  by_cases hij : i = j
  · subst hij
    exact ⟨{ world := w }, if_pos rfl, fun _ => ⟨hw, .moveAssign_self⟩⟩
  have hapart := hw.apart i j b c hi hj hij
  obtain ⟨r, left, hr, hcase⟩ := moveAssign_spec (T := T) (hw.valid i b hi) (hw.valid j c hj)
    (hw.within j c hj) hapart ho
  have he : w.exec T (.moveAssign i j o) = some
      { world := ⟨r.heap, update (update w.objects i (some r.buffer)) j (some left)⟩,
        thrown := r.thrown } := by
    simp only [World.exec, if_neg hij, hi, hj, Option.bind_some, hr, Option.map_some]
  refine ⟨_, he, fun _ => ?_⟩
  have hpj : ∀ r' : Result A, (w.put i r').world.objects j = some c := fun r' =>
    (Function.update_of_ne (Ne.symm hij) ..).trans hj
  rcases hcase with ⟨rfl, rfl⟩ | ⟨hs, hok, hno⟩
  · -- the block of the other buffer changes hands
    let r₁ : Result A := { heap := release w.heap b, buffer := reset b }
    have hs : Safe w.heap b r₁ := .destroy (hw.valid i b hi)
    have hw₁ : (w.put i r₁).world.Valid := World.Slot.put_valid (.inl hi) hw hs
    have hnone : ∀ b', (w.put i r₁).world.objects i = some b' → b'.data_ = none := by
      intro b' hb'
      rw [show (w.put i r₁).world.objects i = some (reset b) from Function.update_self ..] at hb'
      cases hb'
      rfl
    have hst := hw₁.steal hnone (hpj r₁) hij
    have hq := World.steal_queues (w.put i r₁).world i j c
    have hobj : update (w.put i r₁).world.objects i (some c) = update w.objects i (some c) :=
      Function.update_idem ..
    have hf : queue (release w.heap b) c = queue w.heap c := by
      have hf : ∀ p, c.data_ = some p → release w.heap b p = w.heap p := fun p hp =>
        release_of_ne fun hb => hapart p hb hp
      rw [queue, readable_frame hf, window_frame hf, queue]
    rw [World.Slot.put_queues (.inl hi) hw hs, hobj, Function.update_idem] at hq
    rw [hobj] at hst
    refine ⟨hst, ?_⟩
    refine (hq.trans ?_) ▸ .moveAssign hij (World.queues_some hi) (World.queues_some hj) (.inl rfl)
    rw [show (w.put i r₁).world.heap = release w.heap b from rfl, hf]
  · by_cases hn : r.thrown = none
    · -- the bytes are copied and the other buffer is cleared
      rw [hok hn, hn]
      have hw₁ : (w.put i r).world.Valid := World.Slot.put_valid (.inl hi) hw (hs.safe hn)
      obtain ⟨hc, hread, hwin⟩ := clear_spec (hw₁.valid j c (hpj r))
      have hq := World.Slot.put_queues (.inl (hpj r)) hw₁ hc
      rw [World.Slot.put_queues (.inl hi) hw (hs.safe hn), queue, hs.readable hn, hs.window hn,
        queue, hread, hwin] at hq
      refine ⟨World.Slot.put_valid (.inl (hpj r)) hw₁ hc, ?_⟩
      exact hq ▸ .moveAssign hij (World.queues_some hi) (World.queues_some hj) (.inr rfl)
    · obtain ⟨hh, hb⟩ := hs.unchanged hn
      obtain ⟨e, hne⟩ := Option.ne_none_iff_exists'.1 hn
      have hobj : update (update w.objects i (some b)) j (some c) = w.objects := by
        rw [← hi, Function.update_eq_self, ← hj, Function.update_eq_self]
      rw [hno hn, hh, hb, hobj, hne]
      exact ⟨hw, .throws⟩

theorem World.Lands.destruct (hw : w.Valid) (ha : w.Admits T (.destruct i)) :
    w.Lands T (.destruct i) := by
  obtain ⟨b, hi⟩ := ha
  let r : Result A := { heap := release w.heap b, buffer := reset b }
  have hs : Safe w.heap b r := .destroy (hw.valid i b hi)
  have hw₁ : (w.put i r).world.Valid := World.Slot.put_valid (.inl hi) hw hs
  have he : w.exec T (.destruct i) = some { world := ⟨r.heap, update w.objects i none⟩ } := by
    simp only [World.exec, hi, Option.bind_some, destroy_eq (hw.valid i b hi), Option.map_some, r]
  have hof : ∀ k c, update w.objects i none k = some c →
      k ≠ i ∧ (w.put i r).world.objects k = some c := by
    intro k c hk
    by_cases hki : k = i
    · subst hki
      rw [Function.update_self] at hk
      cases hk
    · rw [Function.update_of_ne hki] at hk
      exact ⟨hki, (Function.update_of_ne hki ..).trans hk⟩
  refine ⟨_, he, fun _ => ⟨?_, ?_⟩⟩
  · refine hw₁.relabel rfl id ?_ ?_ ?_ ?_
    · exact fun k c hk => ⟨hw₁.valid k c (hof k c hk).2, hw₁.within k c (hof k c hk).2⟩
    · exact fun k c p hk hp => ⟨c, (hof k c hk).2, hp⟩
    · exact fun k l c d p _ _ _ _ hkl => hkl
    · intro l d p hl hd
      have hli : l ≠ i := by
        rintro rfl
        rw [show (w.put l r).world.objects l = some (reset b) from Function.update_self ..] at hl
        cases hl
        cases hd
      refine ⟨l, d, ?_, hd⟩
      rw [show (w.put i r).world.objects l = w.objects l from Function.update_of_ne hli ..] at hl
      exact (Function.update_of_ne hli ..).trans hl
  · have hq := World.Slot.put_queues (.inl hi) hw hs
    have hnone : World.queues ⟨r.heap, update w.objects i none⟩ = update w.queues i none := by
      funext k
      by_cases hki : k = i
      · simp only [hki, World.queues, Function.update_self, Option.map_none]
      · have hk := congrFun hq k
        rw [Function.update_of_ne hki] at hk ⊢
        rw [← hk]
        simp only [World.queues, World.put, Function.update_of_ne hki]
    rw [hnone]
    exact .destruct (World.queues_some hi)

theorem World.Lands.prepare (hw : w.Valid) (ha : w.Admits T (.prepare i n o)) :
    w.Lands T (.prepare i n o) := by
  obtain ⟨⟨b, hi⟩, _, ho⟩ := ha
  obtain ⟨r, hr, hs, hu, _⟩ := prepare_spec (n := n) (hw.valid i b hi) (hw.within i b hi) ho
  have he : w.exec T (.prepare i n o) = some (w.put i r) := World.exec_call hi hr
  by_cases hn : r.thrown = none
  · have hask : w.Bounded (.prepare i n o) r.thrown → r.thrown = none → b.size + n ≤ b.max_ := by
      intro hb hn
      rw [hn] at hb
      exact hb b hi
    refine .of_safe (.inl hi) hw he (fun hb => (hs (hask hb)).1) fun hb => ?_
    by_cases h₀ : n = 0
    · obtain ⟨hh, hbuf⟩ := hu (.inr h₀)
      rw [hh, hbuf, update_queues hi, hn, h₀]
      exact .prepare_zero
    · have hp := (hs (hask hb)).2 hn h₀
      rw [hn, queue, hp.readable]
      exact .prepare h₀ (World.queues_some hi) hp.length
  · exact .of_throw hi hw he hn (hu (.inl hn))

theorem World.Lands.write (hw : w.Valid) (ha : w.Admits T (.write i k bytes)) :
    w.Lands T (.write i k bytes) := by
  obtain ⟨b, hi, hne, hk⟩ := ha
  have v := hw.valid i b hi
  have hd : b.data_ ≠ none := by
    have hpos := List.length_pos_iff.2 hne
    have hlast := v.last_le
    exact Option.isSome_iff_ne_none.1 (v.isSome_iff.2 (by omega))
  obtain ⟨r, hr, hn, hb, hs, hread, hwin⟩ := write_spec v (hw.within i b hi) hd hk
  refine .of_safe (.inl hi) hw (World.exec_call hi hr) (fun _ => hs) fun _ => ?_
  rw [hn, queue, hb, hread, hwin]
  refine .write (World.queues_some hi) ?_
  rw [queue, v.length_window]
  exact hk

theorem World.Lands.commit (hw : w.Valid) (ha : w.Admits T (.commit i n)) :
    w.Lands T (.commit i n) := by
  obtain ⟨⟨b, hi⟩, _⟩ := ha
  obtain ⟨hs, hread, hwin⟩ := commit_spec (n := n) (hw.valid i b hi) (hw.within i b hi)
  refine .of_safe (.inl hi) hw (World.exec_modify hi) (fun _ => hs) fun _ => ?_
  rw [queue, hread, hwin]
  exact .commit (World.queues_some hi)

theorem World.Lands.consume (hw : w.Valid) (ha : w.Admits T (.consume i n)) :
    w.Lands T (.consume i n) := by
  obtain ⟨⟨b, hi⟩, _⟩ := ha
  obtain ⟨hs, hread, hwin⟩ := consume_spec (n := n) (hw.valid i b hi) (hw.within i b hi)
  refine .of_safe (.inl hi) hw (World.exec_modify hi) (fun _ => hs) fun _ => ?_
  rw [queue, hread, hwin]
  exact .consume (World.queues_some hi)

theorem World.Lands.clear (hw : w.Valid) (ha : w.Admits T (.clear i)) :
    w.Lands T (.clear i) := by
  obtain ⟨b, hi⟩ := ha
  obtain ⟨hs, hread, hwin⟩ := clear_spec (hw.valid i b hi)
  refine .of_safe (.inl hi) hw (World.exec_modify hi) (fun _ => hs) fun _ => ?_
  rw [queue, hread, hwin]
  exact .clear (World.queues_some hi)

/-- An operation that keeps the readable bytes has the effect of `reserve` and `shrink_to_fit`. -/
theorem World.Lands.of_kept (hi : w.objects i = some b) (hw : w.Valid)
    (he : w.exec T a = some (w.put i r)) (hk : Kept w.heap b r)
    (hstep : ∀ W, W = window w.heap b ∨ W = [] →
      Queue.Step a none w.queues (update w.queues i (some ⟨readable w.heap b, W⟩))) :
    w.Lands T a := by
  refine .of_safe (.inl hi) hw he (fun _ => hk.safe) fun _ => ?_
  rcases hk.rest with ⟨hn, hwin⟩ | ⟨hh, hb⟩
  · rw [hn, queue, hk.readable, hwin]
    exact hstep [] (.inr rfl)
  · cases hn : r.thrown with
    | none =>
      rw [queue, hk.readable, hh, hb]
      exact hstep _ (.inl rfl)
    | some e =>
      rw [hh, hb, update_queues hi]
      exact .throws

theorem World.Lands.reserve (hw : w.Valid) (ha : w.Admits T (.reserve i n o)) :
    w.Lands T (.reserve i n o) := by
  obtain ⟨⟨b, hi⟩, _, ho⟩ := ha
  obtain ⟨r, hr, hk⟩ := reserve_spec (n := n) (hw.valid i b hi) (hw.within i b hi) ho
  refine .of_kept hi hw (World.exec_call hi hr) hk fun W hW => ?_
  exact .reserve (World.queues_some hi) hW

theorem World.Lands.shrink_to_fit (hw : w.Valid) (ha : w.Admits T (.shrink_to_fit i o)) :
    w.Lands T (.shrink_to_fit i o) := by
  obtain ⟨⟨b, hi⟩, ho⟩ := ha
  obtain ⟨r, hr, hk⟩ := shrink_to_fit_spec (hw.valid i b hi) (hw.within i b hi) ho
  refine .of_kept hi hw (World.exec_call hi hr) hk fun W hW => ?_
  exact .shrink_to_fit (World.queues_some hi) hW

theorem World.Valid.lands (hw : w.Valid) (ha : w.Admits T a) : w.Lands T a := by
  cases a with
  | construct => exact .construct hw ha
  | copyConstruct => exact .copyConstruct hw ha
  | moveConstruct => exact .moveConstruct hw ha
  | copyAssign => exact .copyAssign hw ha
  | moveAssign => exact .moveAssign hw ha
  | swap => exact .swap hw ha
  | destruct => exact .destruct hw ha
  | prepare => exact .prepare hw ha
  | write => exact .write hw ha
  | commit => exact .commit hw ha
  | consume => exact .consume hw ha
  | clear => exact .clear hw ha
  | reserve => exact .reserve hw ha
  | shrink_to_fit => exact .shrink_to_fit hw ha

/-- The runs of a program, with the actions and what they threw, in which no `prepare` succeeds
beyond `max_size()`. -/
inductive World.Run (T : Traits A) : List (Act ι A × Option Exception) → World ι A → Prop
  | nil : Run T [] {}
  | snoc : Run T tr u → u.Admits T a → u.exec T a = some o → u.Bounded a o.thrown →
      Run T (tr ++ [(a, o.thrown)]) o.world

/-- The same runs of the queues. -/
inductive Queue.Run : List (Act ι A × Option Exception) → (ι → Option Queue) → Prop
  | nil : Run [] fun _ => none
  | snoc : Run tr f → Queue.Step a e f g → Run (tr ++ [(a, e)]) g

theorem World.Run.refines {tr : List (Act ι A × Option Exception)} (h : World.Run T tr w) :
    w.Valid ∧ Queue.Run tr w.queues := by
  induction h with
  | nil => exact ⟨.empty, .nil⟩
  | snoc hr ha he hb ih =>
    obtain ⟨o, ho, hok⟩ := ih.1.lands ha
    rw [he, Option.some.injEq] at ho
    subst ho
    obtain ⟨hv, hs⟩ := hok hb
    exact ⟨hv, ih.2.snoc hs⟩

/-- Where the span of a `prepare` is. -/
theorem World.prepare_span (hw : w.Valid) (ha : w.Admits T (.prepare i n ans))
    (he : w.exec T (.prepare i n ans) = some o) (h₀ : n ≠ 0) (hn : o.thrown = none)
    (hb : w.Bounded (.prepare i n ans) o.thrown) :
    ∃ b, o.world.objects i = some b ∧ o.span = ⟨b.data_, b.out_, n⟩ ∧ b.data_ ≠ none ∧
      b.out_ + n ≤ b.end_ := by
  obtain ⟨⟨b, hi⟩, _, ho⟩ := ha
  obtain ⟨r, hr, hs, _, _⟩ := prepare_spec (n := n) (hw.valid i b hi) (hw.within i b hi) ho
  have hput : w.exec T (.prepare i n ans) = some (w.put i r) := World.exec_call hi hr
  rw [hput, Option.some.injEq] at he
  subst he
  have hask : r.thrown = none → b.size + n ≤ b.max_ := by
    intro hn
    rw [show (w.put i r).thrown = none from hn] at hb
    exact hb b hi
  have hp := (hs hask).2 hn h₀
  exact ⟨r.buffer, Function.update_self .., hp.span, hp.writable, hp.room⟩

theorem flat_buffer_fifo {tr : List (Act ι A × Option Exception)} (h : World.Run T tr w) :
    (∀ i b, w.objects i = some b → b.in_ ≤ b.out_ ∧ b.out_ ≤ b.last_ ∧ b.last_ ≤ b.end_ ∧
      (b.data_ = none ↔ b.end_ = 0)) ∧
    Queue.Run tr w.queues ∧
    ∀ a, w.Admits T a → ∃ o, w.exec T a = some o ∧
      ∀ i n ans, a = .prepare i n ans → n ≠ 0 → o.thrown = none → w.Bounded a o.thrown →
        ∃ b, o.world.objects i = some b ∧ o.span = ⟨b.data_, b.out_, n⟩ ∧ b.data_ ≠ none ∧
          b.out_ + n ≤ b.end_ := by
  obtain ⟨hw, hq⟩ := h.refines
  refine ⟨fun i b hi => ?_, hq, fun a ha => ?_⟩
  · have v := hw.valid i b hi
    exact ⟨v.in_le, v.out_le, v.last_le, v.null⟩
  · obtain ⟨o, ho, _⟩ := hw.lands ha
    refine ⟨o, ho, ?_⟩
    rintro i n ans rfl h₀ hn hb
    exact World.prepare_span hw ha ho h₀ hn hb

/-- Three bytes written, two of them committed and one consumed. -/
def sampleActs : List (Act Unit Unit) :=
  [.construct () () 16, .reserve () 4 (.block 0 fun _ => 0), .prepare () 3 .bad_alloc,
    .write () 0 [1, 2, 3], .commit () 2, .consume () 1]

theorem flat_buffer_fifo_sample :
    ∃ w : World Unit Unit, World.Run {} (sampleActs.map fun a => (a, none)) w ∧
      (w.objects ()).map (readable w.heap) = some [2] ∧
      Queue.Run (sampleActs.map fun a => (a, none)) w.queues := by
  have h₀ : World.Run {} [] ({} : World Unit Unit) := .nil
  have h₁ := h₀.snoc (a := .construct () () 16) ⟨rfl, by decide⟩ rfl trivial
  have h₂ := h₁.snoc (a := .reserve () 4 (.block 0 fun _ => 0)) ⟨⟨_, rfl⟩, by decide, rfl⟩ rfl
    trivial
  have h₃ := h₂.snoc (a := .prepare () 3 .bad_alloc) ⟨⟨_, rfl⟩, by decide, trivial⟩ rfl
    (fun b hb => by cases hb; decide)
  have h₄ := h₃.snoc (a := .write () 0 [1, 2, 3]) ⟨_, rfl, by decide, by decide⟩ rfl trivial
  have h₅ := h₄.snoc (a := .commit () 2) ⟨⟨_, rfl⟩, by decide⟩ rfl trivial
  have h₆ := h₅.snoc (a := .consume () 1) ⟨⟨_, rfl⟩, by decide⟩ rfl trivial
  exact ⟨_, h₆, rfl, (flat_buffer_fifo h₆).2.1⟩

end Coio.FlatBuffer
