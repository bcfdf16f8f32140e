import Coio.Signal.Invariant

namespace Coio.Signal
open Transition
open Function (update)
set_option autoImplicit true

variable [DecidableEq κ] {s t : State ι κ} {v : View ι κ}

attribute [local grind =] Function.update_apply Pc.Locked Pc.adding Pc.taken Pc.Late
  WorkerPc.Locked WorkerPc.Fired WorkerPc.held WorkerPc.front Place.Pending State.Finished

/-- A move of a thread that keeps its waiter where it is. -/
theorem Inv.goto (h : Inv s v) (hl : pc.Locked ↔ (s.pc k).Locked)
    (hadd : pc.adding = (s.pc k).adding) (htaken : pc.taken = (s.pc k).taken)
    (hlate : (s.pc k).Late → s.list.head = .null → pc.Late)
    (hinstall : ∀ i, pc = .add .install i → s.list.head = .this)
    (hlink : ∀ i, pc = .add .link i → s.list.head ≠ .null)
    (hrestore : ∀ i, pc = .remove .restore i → s.list.head = .this) : Inv (s.goto k pc) v := by
  unfold State.goto
  exact { h with
    mtx_thread := by have := h.mtx_thread; grind
    install := by have := h.install; grind
    link := by have := h.link; grind
    restore := by have := h.restore; grind
    adding := by have := h.adding; grind
    taken := by have := h.taken; grind
    late := by have := h.late; grind }

/-- A thread takes or leaves the lock. -/
theorem Inv.lock (h : Inv s v) (hl : m = some (.thread k) ∧ s.mtx = none ∧ pc.Locked ∧
      ¬ (s.pc k).Locked ∨ m = none ∧ s.mtx = some (.thread k) ∧ ¬ pc.Locked ∧ (s.pc k).Locked)
    (hadd : pc.adding = (s.pc k).adding) (htaken : pc.taken = (s.pc k).taken)
    (hlate : (s.pc k).Late → pc.Late) (hinstall : ∀ i, pc ≠ .add .install i)
    (hlink : ∀ i, pc ≠ .add .link i) (hrestore : ∀ i, pc ≠ .remove .restore i) :
    Inv { s.goto k pc with mtx := m } v := by
  unfold State.goto
  exact { h with
    mtx_thread := by have := h.mtx_thread; grind
    mtx_worker := by have := h.mtx_worker; grind
    install := by have := h.install; grind
    link := by have := h.link; grind
    restore := by have := h.restore; grind
    adding := by have := h.adding; grind
    taken := by have := h.taken; grind
    late := by have := h.late; grind }

omit [DecidableEq κ] in
/-- The disposition and the pipe are not part of the invariant. -/
theorem Inv.frame (h : Inv s v) (b : Bool) (n : Nat) :
    Inv { s with installed := b, pipe := n } v := { h with }

variable [DecidableEq ι]

theorem Inv.addStep (h : Inv s v) (hs : Signal.addStep s k i a = some t) : ∃ w, Inv t w := by
  cases a with
  | start =>
    obtain ⟨⟨hp, hb⟩, rfl⟩ := enabled_iff.1 hs
    have hplace := (h.busy i).1 hb
    unfold State.goto
    refine ⟨{ v with place := update v.place i (.adding k) }, { h with
      mtx_thread := by have := h.mtx_thread; grind
      install := by have := h.install; grind
      link := by have := h.link; grind
      restore := by have := h.restore; grind
      adding := by have := h.adding; grind
      listed := by have := h.listed; grind
      held := by have := h.held; grind
      taken := by have := h.taken; grind
      busy := by have := h.busy; grind
      registered := by have := h.registered; grind
      finished := by have := h.finished; grind
      unfinished := by have := h.unfinished; grind
      late := by have := h.late; grind }⟩
  | lock =>
    obtain ⟨⟨hp, hm⟩, rfl⟩ := enabled_iff.1 hs
    refine ⟨v, h.lock ?_ ?_ ?_ ?_ nofun nofun nofun⟩ <;> simp [hp, hm, Pc.Locked, Pc.adding,
      Pc.taken, Pc.Late]
  | test =>
    obtain ⟨hp, rfl⟩ := enabled_iff.1 hs
    refine ⟨v, ?_⟩
    cases hh : s.list.head with
    | null =>
      refine h.goto ?_ ?_ ?_ ?_ ?_ ?_ ?_ <;>
        simp [hp, Pc.Locked, Pc.adding, Pc.taken, Pc.Late]
    | this =>
      refine h.goto ?_ ?_ ?_ ?_ ?_ ?_ ?_ <;>
        simp [hp, hh, Pc.Locked, Pc.adding, Pc.taken, Pc.Late]
    | node j =>
      refine h.goto ?_ ?_ ?_ ?_ ?_ ?_ ?_ <;>
        simp [hp, hh, Pc.Locked, Pc.adding, Pc.taken, Pc.Late]
  | install success =>
    obtain ⟨hp, hs⟩ := Option.ite_none_right_eq_some.1 hs
    have hh := h.install k i hp
    refine ⟨v, ?_⟩
    cases success with
    | true =>
      obtain rfl := Option.some.inj hs
      refine (h.frame true s.pipe).goto ?_ ?_ ?_ ?_ ?_ ?_ ?_ <;>
        simp [hp, hh, Pc.Locked, Pc.adding, Pc.taken, Pc.Late]
    | false =>
      obtain rfl := Option.some.inj hs
      refine h.goto ?_ ?_ ?_ ?_ ?_ ?_ ?_ <;>
        simp [hp, hh, Pc.Locked, Pc.adding, Pc.taken, Pc.Late]
  | link =>
    obtain ⟨hp, rfl⟩ := enabled_iff.1 hs
    have hh := h.link k i hp
    obtain ⟨hfirst, hw⟩ := h.opened hh
    have hplace := (h.adding k i).1 (by rw [hp]; rfl)
    have hi : i ∉ v.list := fun hi => by
      have := (h.listed i).1 hi
      rw [hplace] at this
      cases this
    obtain ⟨hspells, hhead⟩ := WaitingList.link_spec h.spells hi hfirst
    have hlate := h.late
    unfold State.goto
    refine ⟨{ list := i :: v.list, place := update v.place i .listed }, { h with
      spells := hspells
      opened := fun _ => ⟨hhead, hw⟩
      closed := by simp [hhead]
      mtx_thread := by have := h.mtx_thread; grind
      install := by have := h.install; have := h.mtx_thread; grind
      link := by simp [hhead]
      restore := by have := h.restore; have := h.mtx_thread; grind
      adding := by have := h.adding; grind
      listed := by have := h.listed; grind
      held := by have := h.held; grind
      taken := by have := h.taken; grind
      busy := by have := h.busy; grind
      registered := by have := h.registered; grind
      finished := by have := h.finished; grind
      unfinished := by have := h.unfinished; grind
      late := by grind }⟩
  | unlock r =>
    obtain ⟨hp, rfl⟩ := enabled_iff.1 hs
    have hm := (h.mtx_thread k).2 (by simp [hp, Pc.Locked])
    by_cases hr : r = .registered
    · subst hr
      simp only [if_true]
      refine ⟨v, { (h.lock ?_ ?_ ?_ ?_ nofun nofun nofun :
        Inv { s.goto k .idle with mtx := none } v) with }⟩ <;>
        simp [hp, hm, Pc.Locked, Pc.adding, Pc.taken, Pc.Late]
    · have hplace := (h.adding k i).1 (by rw [hp]; cases r <;> first | rfl | exact absurd rfl hr)
      simp only [if_neg hr, State.goto]
      refine ⟨{ v with place := update v.place i .nobody }, { h with
        mtx_thread := by have := h.mtx_thread; grind
        mtx_worker := by have := h.mtx_worker; grind
        install := by have := h.install; grind
        link := by have := h.link; grind
        restore := by have := h.restore; grind
        adding := by have := h.adding; grind
        listed := by have := h.listed; grind
        held := by have := h.held; grind
        taken := by have := h.taken; grind
        busy := by have := h.busy; grind
        registered := by have := h.registered; grind
        finished := by have := h.finished; grind
        unfinished := by have := h.unfinished; grind
        late := by have := h.late; grind }⟩

omit [DecidableEq κ] in
/-- A waiter is finished by the party that has taken it from the list. -/
theorem Inv.finish_log (h : Inv s v) (hi : (v.place i).Pending) (r : Result) :
    (∀ j g q, (j, g, q) ∈ (s.finish i r).finished → 0 < g ∧ g ≤ s.registrations j ∧
      (g = s.registrations j → ¬ (update v.place i .nobody j).Pending)) ∧
    (∀ j g, 0 < g → g ≤ s.registrations j → (s.finish i r).Finished j g ∨
      g = s.registrations j ∧ (update v.place i .nobody j).Pending) ∧
    ((s.finish i r).finished.map fun r => (r.1, r.2.1)).Nodup := by
  simp only [State.Finished, State.finish, List.mem_append, List.mem_singleton, List.map_append,
    List.map_cons, List.map_nil]
  refine ⟨?_, ?_, ?_⟩
  · rintro j g q (hm | he)
    · obtain ⟨h₀, hle, hp⟩ := h.finished j g q hm
      refine ⟨h₀, hle, fun hg => ?_⟩
      by_cases hj : j = i
      · rw [hj, Function.update_self]
        exact id
      · rw [Function.update_of_ne hj]
        exact hp hg
    · obtain ⟨rfl, rfl, rfl⟩ := he
      rw [Function.update_self]
      exact ⟨h.registered _ hi, Nat.le_refl _, fun _ => id⟩
  · intro j g h₀ hg
    rcases h.unfinished j g h₀ hg with ⟨q, hq⟩ | ⟨rfl, hp⟩
    · exact .inl ⟨q, .inl hq⟩
    · by_cases hj : j = i
      · exact .inl ⟨r, .inr (by rw [hj])⟩
      · exact .inr ⟨rfl, by rwa [Function.update_of_ne hj]⟩
  · refine List.nodup_append.2 ⟨h.once, (by simp), ?_⟩
    intro p hp q hq
    rw [List.mem_singleton.1 hq]
    rintro rfl
    obtain ⟨⟨j, g, r'⟩, hm, he⟩ := List.mem_map.1 hp
    obtain ⟨hj, hg⟩ := Prod.mk.inj he
    have hlog := (h.finished j g r' hm).2.2
    simp only at hj hg
    rw [hj] at hlog
    exact hlog hg hi

/-- A cancellation finds its waiter in the list unless `pop_all` has reached it. -/
theorem Inv.cut (h : Inv s v) (hs : Signal.removeStep s k i .cut = some t) : ∃ w, Inv t w := by
  obtain ⟨hp, hs⟩ := Option.ite_none_right_eq_some.1 hs
  have hlock := (h.mtx_thread k).2 (by simp [hp, Pc.Locked])
  by_cases hc : s.list.prev i = none ∧ s.list.head ≠ .node i
  · rw [WaitingList.remove_false hc.1 hc.2] at hs
    obtain rfl := Option.some.inj hs
    refine ⟨v, h.goto ?_ ?_ ?_ ?_ ?_ ?_ ?_⟩ <;> simp [hp, Pc.Locked, Pc.adding, Pc.taken, Pc.Late]
  · have hmem : i ∈ v.list := by
      by_contra hi
      have hprev := h.spells.prev_none hi
      refine hc ⟨hprev, fun hh => ?_⟩
      have hfirst := congrArg Head.node? (h.opened (by simp [hh])).1
      rw [hh, WaitingList.node?_first] at hfirst
      exact hi (List.mem_of_mem_head? hfirst.symm)
    obtain ⟨a, b, hab⟩ := List.append_of_mem hmem
    have hspells := hab ▸ h.spells
    obtain ⟨hprev, -⟩ := Linked.Doubly.split hspells
    have ha : a = [] → s.list.head = .node i := by
      rintro rfl
      by_contra hh
      exact hc ⟨hprev, hh⟩
    obtain ⟨w, hw, hsp, hhead⟩ := WaitingList.remove_mem hspells ha
    rw [hw] at hs
    obtain rfl := Option.some.inj hs
    have hplace := (h.listed i).1 hmem
    have hfirst : w.head ≠ .null → w.head = WaitingList.first (a ++ b) ∧ ¬ s.worker.Fired := by
      intro hn
      cases a with
      | nil => exact ⟨hhead, (h.opened (by simp [ha])).2⟩
      | cons j a =>
        have he : w.head = s.list.head := hhead
        have ho := h.opened (he ▸ hn)
        exact ⟨he.trans (ho.1.trans (by rw [hab]; rfl)), ho.2⟩
    have hfront : w.head = .null → s.worker.front = (a ++ b).head? := by
      intro hn
      cases a with
      | nil => exact absurd (hhead.symm.trans hn) (WaitingList.first_ne_null b)
      | cons j a =>
        have he : w.head = s.list.head := hhead
        exact (h.closed (he ▸ hn)).trans (by rw [hab]; rfl)
    have hnull : s.list.head = .null → w.head = .null := by
      intro hn
      cases a with
      | nil => rw [ha rfl] at hn; cases hn
      | cons j a => exact hhead.trans hn
    have hmem' : ∀ j, j ∈ a ++ b ↔ j ∈ v.list ∧ j ≠ i := by
      have hn := hspells.nodup
      intro j
      rw [hab]
      grind
    unfold State.goto
    generalize hpc : (if w.head = .this then RemovePc.restore else .unlock true) = pc
    have hpc' : pc = .restore ∧ w.head = .this ∨ pc = .unlock true := by grind
    clear hhead ha hspells hprev hc hw hpc
    refine ⟨{ list := a ++ b, place := update v.place i (.taken k) }, { h with
      spells := hsp
      opened := hfirst
      closed := hfront
      mtx_thread := by have := h.mtx_thread; grind
      install := by have := h.install; have := h.mtx_thread; grind
      link := by have := h.link; have := h.mtx_thread; grind
      restore := by have := h.restore; have := h.mtx_thread; grind
      adding := by have := h.adding; grind
      listed := by have := h.listed; grind
      held := by have := h.held; grind
      taken := by have := h.taken; grind
      busy := by have := h.busy; grind
      registered := by have := h.registered; grind
      finished := by have := h.finished; grind
      unfinished := by have := h.unfinished; grind
      late := by have := h.late; grind }⟩

theorem Inv.removeStep (h : Inv s v) (hs : Signal.removeStep s k i a = some t) :
    ∃ w, Inv t w := by
  cases a with
  | cancel =>
    obtain ⟨⟨hp, -⟩, rfl⟩ := enabled_iff.1 hs
    refine ⟨v, h.goto ?_ ?_ ?_ ?_ ?_ ?_ ?_⟩ <;> simp [hp, Pc.Locked, Pc.adding, Pc.taken, Pc.Late]
  | lock =>
    obtain ⟨⟨hp, hm⟩, rfl⟩ := enabled_iff.1 hs
    refine ⟨v, h.lock ?_ ?_ ?_ ?_ nofun nofun nofun⟩ <;> simp [hp, hm, Pc.Locked, Pc.adding,
      Pc.taken, Pc.Late]
  | cut => exact h.cut hs
  | restore success =>
    obtain ⟨hp, rfl⟩ := enabled_iff.1 hs
    refine ⟨v, (h.frame (!success && s.installed) s.pipe).goto ?_ ?_ ?_ ?_ ?_ ?_ ?_⟩ <;>
      simp [hp, Pc.Locked, Pc.adding, Pc.taken, Pc.Late]
  | unlock found =>
    obtain ⟨hp, rfl⟩ := enabled_iff.1 hs
    have hm := (h.mtx_thread k).2 (by simp [hp, Pc.Locked])
    cases found with
    | true =>
      refine ⟨v, h.lock ?_ ?_ ?_ ?_ nofun nofun nofun⟩ <;> simp [hp, hm, Pc.Locked, Pc.adding,
        Pc.taken, Pc.Late]
    | false =>
      refine ⟨v, h.lock ?_ ?_ ?_ ?_ nofun nofun nofun⟩ <;> simp [hp, hm, Pc.Locked, Pc.adding,
        Pc.taken, Pc.Late]
  | finish =>
    obtain ⟨hp, rfl⟩ := enabled_iff.1 hs
    have hplace := (h.taken k i).1 (by rw [hp]; rfl)
    obtain ⟨hlog, hall, hnodup⟩ := h.finish_log (by rw [hplace]; trivial) .canceled
    have hreg : ∀ j, (update v.place i .nobody j).Pending → 0 < s.registrations j := by
      have := h.registered
      grind
    simp only [State.finish, State.goto] at hlog hall hnodup ⊢
    refine ⟨{ v with place := update v.place i .nobody }, { h with
      mtx_thread := by have := h.mtx_thread; clear hlog hall hnodup; grind
      install := by have := h.install; clear hlog hall hnodup; grind
      link := by have := h.link; clear hlog hall hnodup; grind
      restore := by have := h.restore; clear hlog hall hnodup; grind
      adding := by have := h.adding; clear hlog hall hnodup; grind
      listed := by have := h.listed; clear hlog hall hnodup; grind
      held := by have := h.held; clear hlog hall hnodup; grind
      taken := by have := h.taken; clear hlog hall hnodup; grind
      busy := by have := h.busy; clear hlog hall hnodup; grind
      registered := hreg
      finished := hlog
      unfinished := hall
      once := hnodup
      late := by have := h.late; clear hlog hall hnodup; grind }⟩

omit [DecidableEq κ] in
theorem Inv.workerStep (h : Inv s v) (hs : Signal.workerStep s a = some t) : ∃ w, Inv t w := by
  cases a with
  | dispatch =>
    obtain ⟨⟨hp, -⟩, rfl⟩ := enabled_iff.1 hs
    exact ⟨v, { h with
      opened := by have := h.opened; grind
      closed := by have := h.closed; grind
      mtx_worker := by have := h.mtx_worker; grind
      held := by have := h.held; grind }⟩
  | reset success =>
    obtain ⟨hp, rfl⟩ := enabled_iff.1 hs
    exact ⟨v, { h with
      opened := by have := h.opened; grind
      closed := by have := h.closed; grind
      mtx_worker := by have := h.mtx_worker; grind
      held := by have := h.held; grind }⟩
  | lock =>
    obtain ⟨⟨hp, hm⟩, rfl⟩ := enabled_iff.1 hs
    exact ⟨v, { h with
      opened := by have := h.opened; grind
      closed := by have := h.closed; grind
      mtx_thread := by have := h.mtx_thread; grind
      mtx_worker := by have := h.mtx_worker; grind
      held := by have := h.held; grind }⟩
  | detach =>
    obtain ⟨hp, rfl⟩ := enabled_iff.1 hs
    have hm := h.mtx_worker.2 (by simp [hp, WorkerPc.Locked])
    have hthread : ∀ k, ¬ (s.pc k).Locked := fun k hk => by
      have := (h.mtx_thread k).2 hk
      rw [hm] at this
      cases this
    have hfront : (s.list.head.node?.elim WorkerPc.unlockEmpty WorkerPc.visit).front =
        v.list.head? := by
      by_cases hn : s.list.head = .null
      · have := h.closed hn
        rw [hp] at this
        rw [hn]
        exact this
      · rw [(h.opened hn).1, WaitingList.node?_first]
        cases v.list <;> rfl
    refine ⟨v, { h with
      spells := h.spells
      opened := fun hn => absurd rfl hn
      closed := fun _ => hfront
      mtx_worker := ?_
      install := ?_
      link := ?_
      restore := ?_
      held := ?_
      late := fun k hk => ⟨(h.late k hk).1, rfl⟩ }⟩
    · rw [hm]
      cases s.list.head.node? <;> simp [WorkerPc.Locked]
    · intro k i hk
      exact absurd (by rw [show s.pc k = _ from hk]; trivial) (hthread k)
    · intro k i hk
      exact absurd (by rw [show s.pc k = _ from hk]; trivial) (hthread k)
    · intro k i hk
      exact absurd (by rw [show s.pc k = _ from hk]; trivial) (hthread k)
    · have hheld := h.held
      rw [hp] at hheld
      cases s.list.head.node? <;> exact hheld
  | unlockEmpty =>
    obtain ⟨hp, rfl⟩ := enabled_iff.1 hs
    have hm := h.mtx_worker.2 (by simp [hp, WorkerPc.Locked])
    exact ⟨v, { h with
      opened := by have := h.opened; grind
      closed := by have := h.closed; grind
      mtx_thread := by have := h.mtx_thread; grind
      mtx_worker := by have := h.mtx_worker; grind
      held := by have := h.held; grind }⟩
  | visit waiter =>
    obtain ⟨hp, hs⟩ := Option.ite_none_right_eq_some.1 hs
    have hm := h.mtx_worker.2 (by simp [hp, WorkerPc.Locked])
    have hn : s.list.head = .null := by
      by_contra hn
      exact (h.opened hn).2 (by rw [hp]; trivial)
    have hfront := h.closed hn
    rw [hp] at hfront
    obtain ⟨l, hl⟩ : ∃ l, v.list = waiter :: l := by
      cases hl : v.list with
      | nil => rw [hl] at hfront; cases hfront
      | cons i l =>
        rw [hl] at hfront
        obtain rfl := Option.some.inj hfront
        exact ⟨l, rfl⟩
    obtain ⟨w, hw, hsp, hhead⟩ := WaitingList.visit_spec (hl ▸ h.spells)
    have hs : some { s with
        worker := .unlock waiter (s.list.visit waiter).2, list := (s.list.visit waiter).1 } =
      some t := hs
    rw [hw] at hs
    obtain rfl := Option.some.inj hs
    have hplace := (h.listed waiter).1 (by simp [hl])
    have hnd := h.spells.nodup
    rw [hl] at hnd
    rw [hn] at hhead
    refine ⟨{ list := l, place := update v.place waiter .held }, { h with
      spells := hsp
      opened := fun hx => absurd hhead hx
      closed := fun _ => rfl
      mtx_worker := by simp [hm, WorkerPc.Locked]
      install := by have := h.install; grind
      link := by have := h.link; grind
      restore := by have := h.restore; grind
      adding := by have := h.adding; grind
      listed := by have := h.listed; grind
      held := by have := h.held; grind
      taken := by have := h.taken; grind
      busy := by have := h.busy; grind
      registered := by have := h.registered; grind
      finished := by have := h.finished; grind
      unfinished := by have := h.unfinished; grind
      late := by have := h.late; grind }⟩
  | unlock waiter next =>
    obtain ⟨hp, rfl⟩ := enabled_iff.1 hs
    have hm := h.mtx_worker.2 (by simp [hp, WorkerPc.Locked])
    exact ⟨v, { h with
      opened := by have := h.opened; grind
      closed := by have := h.closed; grind
      mtx_thread := by have := h.mtx_thread; grind
      mtx_worker := by have := h.mtx_worker; grind
      held := by have := h.held; grind }⟩
  | finish waiter next =>
    obtain ⟨hp, rfl⟩ := enabled_iff.1 hs
    have hplace := (h.held waiter).1 (by rw [hp]; rfl)
    obtain ⟨hlog, hall, hnodup⟩ := h.finish_log (by rw [hplace]; trivial) .signal
    have hreg : ∀ j, (update v.place waiter .nobody j).Pending → 0 < s.registrations j := by
      have := h.registered
      grind
    have hn : s.list.head = .null := by
      by_contra hn
      exact (h.opened hn).2 (by rw [hp]; trivial)
    have hfront := h.closed hn
    rw [hp] at hfront
    simp only [State.finish] at hlog hall hnodup ⊢
    refine ⟨{ v with place := update v.place waiter .nobody }, { h with
      opened := fun hx => absurd hn hx
      closed := fun _ => by rw [← hfront]; cases next <;> rfl
      mtx_worker := by
        have := h.mtx_worker
        rw [hp] at this
        cases next <;> exact this
      adding := by have := h.adding; clear hlog hall hnodup; grind
      listed := by have := h.listed; clear hlog hall hnodup; grind
      held := by
        have hheld := h.held
        intro i
        have hnone : (next.elim WorkerPc.idle WorkerPc.relock).held = none := by
          cases next <;> rfl
        rw [hnone]
        clear hlog hall hnodup
        grind
      taken := by have := h.taken; clear hlog hall hnodup; grind
      busy := by have := h.busy; clear hlog hall hnodup; grind
      registered := hreg
      finished := hlog
      unfinished := hall
      once := hnodup }⟩
  | relock waiter =>
    obtain ⟨⟨hp, hm⟩, rfl⟩ := enabled_iff.1 hs
    exact ⟨v, { h with
      opened := by have := h.opened; grind
      closed := by have := h.closed; grind
      mtx_thread := by have := h.mtx_thread; grind
      mtx_worker := by have := h.mtx_worker; grind
      held := by have := h.held; grind }⟩

theorem Inv.step (h : Inv s v) (hs : Signal.step s a = some t) : ∃ w, Inv t w := by
  cases a with
  | deliver written =>
    obtain ⟨-, rfl⟩ := enabled_iff.1 hs
    exact ⟨v, h.frame s.installed _⟩
  | add k i a => exact h.addStep hs
  | remove k i a => exact h.removeStep hs
  | worker a => exact h.workerStep hs

theorem Inv.reachable (h : (system ι κ).Reachable s) : ∃ v, Inv s v :=
  System.Invariant.reachable (I := fun s => ∃ v, Inv s v)
    ⟨⟨{}, .init⟩, fun _ _ _ _ ⟨_, hv⟩ hs => hv.step hs⟩ h

end Coio.Signal
