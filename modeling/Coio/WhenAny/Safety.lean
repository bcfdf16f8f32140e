import Coio.WhenAny.Model
import Coio.Lib.Tally
import Mathlib.Data.Fintype.Card

namespace Coio.WhenAny
open Transition
set_option autoImplicit true

/-- The child has reported. -/
def Pc.Reported : Pc α ε → Prop
  | .unstarted | .running | .report _ => False
  | _ => True

/-- The child has reported first and not yet issued the stop request. -/
def Pc.Winning : Pc α ε → Prop
  | .request_stop _ => True
  | _ => False

/-- The child has reported first and not yet stored its completion. -/
def Pc.Storing : Pc α ε → Prop
  | .request_stop _ | .stopping _ | .emplace _ => True
  | _ => False

def Pc.Arrived : Pc α ε → Prop
  | .finish | .done => True
  | _ => False

/-- The completion that a child is about to store. -/
def Pc.stored : Pc α ε → Option (Completion α ε)
  | .request_stop c | .stopping c | .emplace c => some c
  | _ => none

theorem Pc.stored_of_storing {pc : Pc α ε} (h : pc.Storing) : ∃ c, pc.stored = some c := by
  cases pc with
  | request_stop c | stopping c | emplace c => exact ⟨c, rfl⟩
  | _ => exact h.elim

theorem Pc.storing_of_winning {pc : Pc α ε} (h : pc.Winning) : pc.Storing := by
  cases pc with
  | request_stop c => trivial
  | _ => exact h.elim

theorem Pc.reported_of_arrived {pc : Pc α ε} (h : pc.Arrived) : pc.Reported := by
  cases pc with
  | finish | done => trivial
  | _ => exact h.elim

theorem Pc.not_storing_of_arrived {pc : Pc α ε} (h : pc.Arrived) : ¬ pc.Storing := by
  cases pc with
  | finish | done => exact id
  | _ => exact h.elim

/-- The invariant of a `when_any`. The first report is that of the winner. -/
structure Inv (s : State α ε total) : Prop where
  next_le : s.next ≤ total
  unstarted : ∀ i, s.pc i = .unstarted ↔ s.next ≤ i.val
  reported : ∀ i, i ∈ s.reports.map Prod.fst ↔ (s.pc i).Reported
  reports : (s.reports.map Prod.fst).Nodup
  done_count : s.done_count = s.reports.length
  arrived : ∀ i, i ∈ s.arrivals ↔ (s.pc i).Arrived
  arrivals : s.arrivals.Nodup
  ready_count : s.ready_count = s.arrivals.length
  winner : ∀ i c, (s.pc i).stored = some c → s.reports.head? = some (i, c)
  stops : ∀ i c, s.reports.head? = some (i, c) →
    (s.pc i).Winning ∧ s.stops = [] ∨ ¬ (s.pc i).Winning ∧ s.stops = [i]
  no_stops : s.reports = [] → s.stops = []
  result : ∀ i c, s.reports.head? = some (i, c) →
    (s.pc i).Storing ∨ s.result = c
  unset : ∀ i, (s.pc i).Storing → s.result = .stopped
  no_result : s.reports = [] → s.result = .stopped
  finish : ∀ i, s.pc i = .finish → s.arrivals.getLast? = some i ∧ s.ready_count = total
  early : s.ready_count < total ∨ total = 0 ∨ (∃ i, s.pc i = .finish) → s.completions = []
  delivered : s.ready_count = total → total ≠ 0 → (∀ i, s.pc i ≠ .finish) →
    s.completions = [s.result]

theorem Inv.init [DecidableEq α] [DecidableEq ε] : Inv (system α ε total).init := by
  constructor <;> simp [system, Pc.Reported, Pc.Winning, Pc.Storing, Pc.Arrived, Pc.stored]
  exact Eq.symm

variable {s t : State α ε total}

/-- A child that has not arrived is missing in the count. -/
theorem Inv.ready_lt (h : Inv s) (hi : ¬ (s.pc i).Arrived) : s.ready_count < total := by
  have hn : (i :: s.arrivals).Nodup := List.nodup_cons.2 ⟨mt (h.arrived i).1 hi, h.arrivals⟩
  have hle := hn.length_le_card
  rw [List.length_cons, Fintype.card_fin, ← h.ready_count] at hle
  exact hle

theorem Inv.ready_of_arrived (h : Inv s) (ha : ∀ i, (s.pc i).Arrived) :
    s.ready_count = total := by
  have hall : List.finRange total ⊆ s.arrivals := fun i _ => (h.arrived i).2 (ha i)
  have hge := ((List.nodup_finRange total).subperm hall).length_le
  have hle := h.arrivals.length_le_card
  rw [List.length_finRange] at hge
  rw [Fintype.card_fin] at hle
  rw [h.ready_count]
  exact Nat.le_antisymm hle hge

/-- The outer receiver is completed after the last step of every child. -/
theorem Inv.done_of_completed (h : Inv s) (hc : s.completions ≠ []) (i : Fin total) :
    s.pc i = .done := by
  have harrived : (s.pc i).Arrived := by
    by_contra hi
    exact hc (h.early (.inl (h.ready_lt hi)))
  cases hp : s.pc i with
  | done => rfl
  | finish => exact absurd (h.early (.inr (.inr ⟨i, hp⟩))) hc
  | _ =>
    rw [hp] at harrived
    exact harrived.elim

theorem Inv.completed_of_done (h : Inv s) (hn : 0 < total) (hd : ∀ i, s.pc i = .done) :
    s.completions = [s.result] := by
  have hall : ∀ i, (s.pc i).Arrived := fun i => by
    rw [hd i]
    trivial
  refine h.delivered (h.ready_of_arrived hall) (Nat.ne_of_gt hn) fun i hf => ?_
  rw [hd i] at hf
  cases hf

/-- Once all children are started, none is left to be. -/
theorem Inv.next_of_done (h : Inv s) (hd : ∀ i, s.pc i = .done) : s.next = total := by
  refine Nat.le_antisymm h.next_le (Nat.le_of_not_lt fun hlt => ?_)
  have := (h.unstarted ⟨s.next, hlt⟩).2 (Nat.le_refl _)
  rw [hd] at this
  cases this

/-- The completion of the first child to report is the result once all have arrived. -/
theorem Inv.result_of_arrived (h : Inv s) (hn : 0 < total) (ha : ∀ i, (s.pc i).Arrived) :
    ∃ i, s.reports.head? = some (i, s.result) ∧ s.stops = [i] := by
  have hrep := Pc.reported_of_arrived (ha ⟨0, hn⟩)
  obtain ⟨⟨i, c⟩, hhead⟩ : ∃ r, s.reports.head? = some r := by
    cases hr : s.reports with
    | nil =>
      have := (h.reported _).2 hrep
      rw [hr] at this
      cases this
    | cons r rs => exact ⟨r, rfl⟩
  have hi := ha i
  refine ⟨i, ?_, ?_⟩
  · rcases h.result i c hhead with hst | rfl
    · exact absurd hst (Pc.not_storing_of_arrived hi)
    · exact hhead
  · rcases h.stops i c hhead with ⟨hw, -⟩ | ⟨-, hs⟩
    · exact absurd (Pc.storing_of_winning hw) (Pc.not_storing_of_arrived hi)
    · exact hs

theorem Inv.stops_cases (h : Inv s) :
    s.stops = [] ∨ ∃ i, (∃ c, s.reports.head? = some (i, c)) ∧ s.stops = [i] := by
  cases hr : s.reports with
  | nil => exact .inl (h.no_stops hr)
  | cons r rs =>
    have hhead : s.reports.head? = some (r.1, r.2) := by rw [hr]; rfl
    rcases h.stops r.1 r.2 hhead with ⟨-, hs⟩ | ⟨-, hs⟩
    · exact .inl hs
    · exact .inr ⟨r.1, ⟨r.2, rfl⟩, hs⟩

attribute [local grind =] Function.update_apply Pc.Reported Pc.Winning Pc.Storing Pc.Arrived
  Pc.stored List.head?_append List.getLast?_append

variable [DecidableEq α] [DecidableEq ε]

theorem Inv.start (h : Inv s) (hs : WhenAny.step s .start = some t) : Inv t := by
  simp only [WhenAny.step] at hs
  split at hs
  · rename_i hlt
    obtain rfl := Option.some.inj hs
    have hpc : s.pc ⟨s.next, hlt⟩ = .unstarted := (h.unstarted _).2 (Nat.le_refl _)
    have hready := h.ready_lt (i := ⟨s.next, hlt⟩) (by rw [hpc]; exact id)
    unfold State.goto
    exact { h with
      next_le := hlt
      unstarted := fun i => by
        have hu := h.unstarted i
        have hi : i = ⟨s.next, hlt⟩ ↔ i.val = s.next := Fin.ext_iff
        grind
      reported := by have := h.reported; grind
      arrived := by have := h.arrived; grind
      winner := by have := h.winner; grind
      stops := by have := h.stops; grind
      result := by have := h.result; grind
      unset := by have := h.unset; grind
      finish := by have := h.finish; grind
      early := fun _ => h.early (.inl hready)
      delivered := fun hr => absurd hr (Nat.ne_of_lt hready) }
  · cases hs

theorem Inv.complete (h : Inv s) (hs : WhenAny.step s (.complete i c) = some t) : Inv t := by
  obtain ⟨hp, rfl⟩ := enabled_iff.1 hs
  have hready := h.ready_lt (i := i) (by rw [hp]; exact id)
  unfold State.goto
  exact { h with
    unstarted := by have := h.unstarted; grind
    reported := by have := h.reported; grind
    arrived := by have := h.arrived; grind
    winner := by have := h.winner; grind
    stops := by have := h.stops; grind
    result := by have := h.result; grind
    unset := by have := h.unset; grind
    finish := by have := h.finish; grind
    early := fun _ => h.early (.inl hready)
    delivered := fun hr => absurd hr (Nat.ne_of_lt hready) }

theorem Inv.report (h : Inv s) (hs : WhenAny.step s (.report i c) = some t) : Inv t := by
  obtain ⟨hp, rfl⟩ := enabled_iff.1 hs
  have hready := h.ready_lt (i := i) (by rw [hp]; exact id)
  have hnew : i ∉ s.reports.map Prod.fst := fun hi => by
    have := (h.reported i).1 hi
    rw [hp] at this
    exact this
  have hfirst : s.done_count = 0 ↔ s.reports = [] := by
    rw [h.done_count, List.length_eq_zero_iff]
  have hhead : ∀ j d, (s.reports ++ [(i, c)]).head? = some (j, d) ↔
      s.reports = [] ∧ j = i ∧ d = c ∨ s.reports.head? = some (j, d) := by
    intro j d
    cases s.reports with
    | nil => simp [eq_comm]
    | cons r rs => simp
  have hother : ∀ j d, s.reports.head? = some (j, d) → s.reports ≠ [] ∧ j ≠ i := by
    intro j d hj
    refine ⟨fun hr => ?_, fun hi => hnew ?_⟩
    · rw [hr] at hj
      cases hj
    · exact List.mem_map.2 ⟨_, List.mem_of_mem_head? hj, hi⟩
  unfold State.goto
  exact { h with
    unstarted := by have := h.unstarted; grind
    reported := by have := h.reported; grind
    reports := by
      rw [List.map_append]
      exact List.nodup_append.2 ⟨h.reports, by simp, by grind⟩
    done_count := by simp [h.done_count]
    arrived := by have := h.arrived; grind
    winner := fun j d hj => (hhead j d).2 (by have := h.winner; grind)
    stops := fun j d hj => by
      have := h.stops
      have := h.no_stops
      rcases (hhead j d).1 hj with ⟨hr, rfl, rfl⟩ | hj'
      · grind
      · have := hother j d hj'
        grind
    no_stops := by simp
    result := fun j d hj => by
      have := h.result
      rcases (hhead j d).1 hj with ⟨hr, rfl, rfl⟩ | hj'
      · grind
      · have := hother j d hj'
        grind
    unset := by have := h.unset; have := h.no_result; grind
    no_result := by simp
    finish := by have := h.finish; grind
    early := fun _ => h.early (.inl hready)
    delivered := fun hr => absurd hr (Nat.ne_of_lt hready) }

theorem Inv.request_stop (h : Inv s) (hs : WhenAny.step s (.request_stop i c) = some t) :
    Inv t := by
  obtain ⟨hp, rfl⟩ := enabled_iff.1 hs
  have hready := h.ready_lt (i := i) (by rw [hp]; exact id)
  have hw := h.winner i c (by rw [hp]; rfl)
  unfold State.goto
  exact { h with
    unstarted := by have := h.unstarted; grind
    reported := by have := h.reported; grind
    arrived := by have := h.arrived; grind
    winner := by have := h.winner; grind
    stops := by have := h.stops; grind
    no_stops := by grind
    result := by have := h.result; grind
    unset := by have := h.unset; grind
    finish := by have := h.finish; grind
    early := fun _ => h.early (.inl hready)
    delivered := fun hr => absurd hr (Nat.ne_of_lt hready) }

theorem Inv.stop_returns (h : Inv s) (hs : WhenAny.step s (.stop_returns i c) = some t) :
    Inv t := by
  obtain ⟨hp, rfl⟩ := enabled_iff.1 hs
  have hready := h.ready_lt (i := i) (by rw [hp]; exact id)
  have hw := h.winner i c (by rw [hp]; rfl)
  have hunset := h.unset i (by rw [hp]; trivial)
  have hwon : c.won = .arrive ∧ c = .stopped ∨ c.won = .emplace c := by
    cases c <;> simp [Completion.won]
  unfold State.goto
  generalize c.won = pc at hwon ⊢
  exact { h with
    unstarted := by have := h.unstarted; grind
    reported := by have := h.reported; grind
    arrived := by have := h.arrived; grind
    winner := by have := h.winner; grind
    stops := by have := h.stops; grind
    result := by have := h.result; grind
    unset := by have := h.unset; grind
    finish := by have := h.finish; grind
    early := fun _ => h.early (.inl hready)
    delivered := fun hr => absurd hr (Nat.ne_of_lt hready) }

theorem Inv.emplace (h : Inv s) (hs : WhenAny.step s (.emplace i c) = some t) : Inv t := by
  obtain ⟨hp, rfl⟩ := enabled_iff.1 hs
  have hw := h.winner i c (by rw [hp]; rfl)
  have hready := h.ready_lt (i := i) (by rw [hp]; exact id)
  have hothers : ∀ j, (s.pc j).Storing → j = i := fun j hj => by
    obtain ⟨d, hd⟩ := Pc.stored_of_storing hj
    have hj := h.winner j d hd
    rw [hw] at hj
    cases hj
    rfl
  unfold State.goto
  exact { h with
    unstarted := by have := h.unstarted; grind
    reported := by have := h.reported; grind
    arrived := by have := h.arrived; grind
    winner := by have := h.winner; grind
    stops := by have := h.stops; grind
    result := by have := h.result; grind
    unset := by have := h.unset; grind
    no_result := by grind
    finish := by have := h.finish; grind
    early := fun _ => h.early (.inl hready)
    delivered := fun hr => absurd hr (Nat.ne_of_lt hready) }

theorem Inv.arrive (h : Inv s) (hs : WhenAny.step s (.arrive i) = some t) : Inv t := by
  obtain ⟨hp, rfl⟩ := enabled_iff.1 hs
  have hready := h.ready_lt (i := i) (by rw [hp]; exact id)
  have hnew : i ∉ s.arrivals := fun hi => by
    have := (h.arrived i).1 hi
    rw [hp] at this
    exact this
  have hearly := h.early (.inl hready)
  have hnone : ∀ j, s.pc j ≠ .finish := fun j hj => by
    have := (h.finish j hj).2
    omega
  unfold State.goto
  exact { h with
    unstarted := by have := h.unstarted; grind
    reported := by have := h.reported; grind
    arrived := by have := h.arrived; grind
    arrivals := List.nodup_append.2 ⟨h.arrivals, by simp, by grind⟩
    ready_count := by simp [h.ready_count]
    winner := by have := h.winner; grind
    stops := by have := h.stops; grind
    result := by have := h.result; grind
    unset := by have := h.unset; grind
    finish := by grind
    early := fun _ => hearly
    delivered := fun hr _ hno => absurd (by simp [show s.ready_count + 1 = total from hr]) (hno i) }

theorem Inv.finish_step (h : Inv s) (hs : WhenAny.step s (.finish i) = some t) : Inv t := by
  obtain ⟨hp, rfl⟩ := enabled_iff.1 hs
  obtain ⟨hlast, hready⟩ := h.finish i hp
  have hearly := h.early (.inr (.inr ⟨i, hp⟩))
  have hothers : ∀ j, s.pc j = .finish → j = i := fun j hj => by
    have := (h.finish j hj).1
    grind
  unfold State.goto
  exact { h with
    unstarted := by have := h.unstarted; grind
    reported := by have := h.reported; grind
    arrived := by have := h.arrived; grind
    winner := by have := h.winner; grind
    stops := by have := h.stops; grind
    result := by have := h.result; grind
    unset := by have := h.unset; grind
    finish := by have := h.finish; grind
    early := by have := i.pos; grind
    delivered := fun _ _ _ => by rw [hearly, List.nil_append] }

theorem Inv.step (h : Inv s) (hs : WhenAny.step s a = some t) : Inv t := by
  cases a with
  | start => exact h.start hs
  | complete i c => exact h.complete hs
  | report i c => exact h.report hs
  | request_stop i c => exact h.request_stop hs
  | stop_returns i c => exact h.stop_returns hs
  | emplace i c => exact h.emplace hs
  | arrive i => exact h.arrive hs
  | finish i => exact h.finish_step hs

theorem Inv.reachable (h : (system α ε total).Reachable s) : Inv s :=
  System.Invariant.reachable ⟨.init, fun _ _ _ _ hi hs => hi.step hs⟩ h

/-- The steps that a child has left, as long as it is started. -/
def Pc.rank : Pc α ε → Nat
  | .running => 7
  | .report _ => 6
  | .request_stop _ => 5
  | .stopping _ => 4
  | .emplace _ => 3
  | .arrive => 2
  | .finish => 1
  | .unstarted | .done => 0

omit [DecidableEq α] [DecidableEq ε] in
theorem Completion.rank_won (c : Completion α ε) : c.won.rank < 4 := by
  cases c with
  | stopped => exact (by decide : 2 < 4)
  | value a | error e => exact (by decide : 3 < 4)

/-- The steps that are left are the sum over the children, and eight for each one to be started. -/
theorem step_rank (h : Tally.Total (fun i => (s.pc i).rank) n) (hs : WhenAny.step s a = some t) :
    ∃ m, Tally.Total (fun i => (t.pc i).rank) m ∧
      m + 8 * (total - t.next) < n + 8 * (total - s.next) := by
  have move : ∀ (i : Fin total) (pc : Pc α ε), Tally.Total
      (fun j => (Function.update s.pc i pc j).rank) (n + pc.rank - (s.pc i).rank) := fun i pc =>
    h.update (by have := h.le i; omega)
  cases a with
  | start =>
    simp only [WhenAny.step] at hs
    split at hs
    · rename_i hlt
      obtain rfl := Option.some.inj hs
      refine ⟨_, move ⟨s.next, hlt⟩ .running, ?_⟩
      simp only [Pc.rank]
      omega
    · cases hs
  | complete i c | request_stop i c | emplace i c | finish i =>
    obtain ⟨hp, rfl⟩ := enabled_iff.1 hs
    have hle := h.le i
    refine ⟨_, move i _, ?_⟩
    rw [hp] at hle ⊢
    simp only [State.goto, Pc.rank] at hle ⊢
    omega
  | report i c | arrive i =>
    obtain ⟨hp, rfl⟩ := enabled_iff.1 hs
    have hle := h.le i
    refine ⟨_, move i _, ?_⟩
    rw [hp] at hle ⊢
    split <;> simp only [State.goto, Pc.rank] at hle ⊢ <;> omega
  | stop_returns i c =>
    obtain ⟨hp, rfl⟩ := enabled_iff.1 hs
    have hle := h.le i
    have hwon := c.rank_won
    have hstopping : (s.pc i).rank = 4 := by rw [hp]; rfl
    refine ⟨_, move i _, ?_⟩
    change _ + 8 * (total - s.next) < _
    omega

/-- No run is longer than its rank. -/
theorem exec_length (h : Tally.Total (fun i => (s.pc i).rank) n)
    (he : (system α ε total).exec s as = some t) : as.length ≤ n + 8 * (total - s.next) := by
  induction as generalizing s n with
  | nil => exact Nat.zero_le _
  | cons a as ih =>
    obtain ⟨u, hu, hr⟩ := Option.bind_eq_some_iff.1 he
    obtain ⟨m, hm, hlt⟩ := step_rank h hu
    have := ih hm hr
    rw [List.length_cons]
    omega

/-- Where nothing can move, every child has been started and has made all its steps. -/
theorem Inv.done_of_stuck (h : Inv s) (hs : ∀ a, WhenAny.step s a = none) (i : Fin total) :
    s.pc i = .done := by
  have blocked : ∀ {p : Prop} [Decidable p] {u : State α ε total},
      (if p then some u else none) = none → ¬ p := fun hn hp => by
    rw [if_pos hp] at hn
    cases hn
  cases hp : s.pc i with
  | unstarted =>
    have hle := (h.unstarted i).1 hp
    have hlt : s.next < total := Nat.lt_of_le_of_lt hle i.isLt
    have := hs .start
    simp only [WhenAny.step, dif_pos hlt] at this
    cases this
  | running => exact absurd hp (blocked (hs (.complete i .stopped)))
  | report c => exact absurd hp (blocked (hs (.report i c)))
  | request_stop c => exact absurd hp (blocked (hs (.request_stop i c)))
  | stopping c => exact absurd hp (blocked (hs (.stop_returns i c)))
  | emplace c => exact absurd hp (blocked (hs (.emplace i c)))
  | arrive => exact absurd hp (blocked (hs (.arrive i)))
  | finish => exact absurd hp (blocked (hs (.finish i)))
  | done => rfl

/-- The outer receiver is completed once, after all children have been started and have completed,
with the completion of the first child to report, and that child alone requests the stop. -/
theorem delivers_first (hn : 0 < total) (h : (system α ε total).Reachable s) :
    s.completions.length ≤ 1 ∧ s.stops.length ≤ 1 ∧
    (∀ i ∈ s.stops, ∃ c, s.reports.head? = some (i, c)) ∧
    (∀ c ∈ s.completions, s.next = total ∧ (∀ i, s.pc i = .done) ∧
      ∃ i, s.reports.head? = some (i, c) ∧ s.stops = [i]) ∧
    ((∀ a, step s a = none) → ∃ c, s.completions = [c]) ∧
    ∀ as t, (system α ε total).exec (system α ε total).init as = some t →
      as.length ≤ 8 * total := by
  have hv := Inv.reachable h
  have hcompleted : s.completions ≠ [] → s.completions = [s.result] := fun hc =>
    hv.completed_of_done hn (hv.done_of_completed hc)
  refine ⟨?_, ?_, fun i hi => ?_, fun c hc => ?_, fun hs => ?_, fun as t he => ?_⟩
  · by_cases hc : s.completions = []
    · rw [hc]
      exact Nat.zero_le 1
    · rw [hcompleted hc]
      exact Nat.le_refl 1
  · rcases hv.stops_cases with hs | ⟨i, -, hs⟩
    · rw [hs]
      exact Nat.zero_le 1
    · rw [hs]
      exact Nat.le_refl 1
  · rcases hv.stops_cases with hs | ⟨j, hhead, hs⟩
    · rw [hs] at hi
      cases hi
    · rw [hs, List.mem_singleton] at hi
      rw [hi]
      exact hhead
  · have hne := List.ne_nil_of_mem hc
    have hdone := hv.done_of_completed hne
    rw [hcompleted hne, List.mem_singleton] at hc
    rw [hc]
    exact ⟨hv.next_of_done hdone, hdone,
      hv.result_of_arrived hn fun i => by rw [hdone i]; trivial⟩
  · exact ⟨_, hv.completed_of_done hn (hv.done_of_stuck hs)⟩
  · have := exec_length Tally.Total.zero he
    rwa [Nat.zero_add] at this

/-- The second child completes inside the stop request that the first one issues. -/
def inlineRun : List (Act Nat Nat 2) :=
  [.start, .start, .complete 0 (.value 7), .report 0 (.value 7), .request_stop 0 (.value 7),
    .complete 1 .stopped, .report 1 .stopped, .arrive 1, .stop_returns 0 (.value 7),
    .emplace 0 (.value 7), .arrive 0, .finish 0]

theorem delivers_first_inline : ∃ s,
    (system Nat Nat 2).exec (system Nat Nat 2).init inlineRun = some s ∧
    s.completions = [.value 7] ∧ s.next = 2 := by
  refine ⟨_, rfl, rfl, ?_⟩
  have hs := (system Nat Nat 2).reachable_exec inlineRun rfl
  exact ((delivers_first Nat.two_pos hs).2.2.2.1 (.value 7) (.head _)).1

end Coio.WhenAny
