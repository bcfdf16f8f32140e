import Coio.Fifo.Model

namespace Coio.Fifo
open Transition Tally
open AsyncSemaphore (Call Callers)
set_option autoImplicit true

/-- The operation is inside the semaphore of `d`. -/
def Pc.acquiring (d : Kind) : Pc α → Bool
  | .acquire job => job.kind = d
  | _ => false

/-- The call of a party that the semaphore of `d` sees. -/
def Party.call (d : Kind) : Party ι κ → Pc α → Option Call
  | .thread _, .acquire job => if job.kind = d then some .tryAcquire else none
  | _, .releasing e _ => if e.other = d then some .release else none
  | _, _ => none

def Pc.Locked : Pc α → Prop
  | .update _ | .unlock _ _ => True
  | _ => False

/-- The operation has its permit and has not used it. -/
def Pc.taken (d : Kind) : Pc α → Nat
  | .lock job | .update job => if job.kind = d then 1 else 0
  | _ => 0

/-- The operation has moved its element and not called `release()`. -/
def Pc.owed (d : Kind) : Pc α → Nat
  | .unlock e _ | .release e _ => if e = d then 1 else 0
  | _ => 0

/-- The element that an operation has moved. -/
def Pc.held (d : Kind) : Pc α → List α
  | .unlock e value | .release e value | .releasing e value => if e = d then [value] else []
  | _ => []

def Pc.busy : Pc α → Nat
  | .idle => 0
  | _ => 1

/-- The permits that a semaphore starts with. -/
def permits (maxSize : Nat) (initial : List α) : Kind → Nat
  | .push => maxSize
  | .pop => initial.length

/-- The elements that a party has moved, in order. -/
def State.movedBy [DecidableEq ι] [DecidableEq κ] (s : State α ι κ) (d : Kind) (p : Party ι κ) :
    List α :=
  ((s.moved d).filter fun m => m.1 = p).map Prod.snd

/-- How many permits the operations have taken, how many moved elements they have yet to announce by
`release()`, and how many permits are lost. -/
structure View where
  taken : Kind → Nat := fun _ => 0
  owed : Kind → Nat := fun _ => 0
  lost : Kind → Nat := fun _ => 0

/-- The invariant of a fifo: the semaphores keep theirs, each party is where the semaphores see it,
and permits and elements balance. -/
structure Inv [DecidableEq ι] [DecidableEq κ] (limit maxSize : Nat) (initial : List α)
    (s : State α ι κ) (v : View) : Prop where
  sema : ∀ d, ∃ w, AsyncSemaphore.Inv limit (permits maxSize initial d) (s.sema d) w
  busy : ∀ d i, (s.sema d).callers.busy i = (s.pc (.op d i)).acquiring d
  call : ∀ d p, (s.sema d).callers.call p = p.call d (s.pc p)
  mtx : ∀ p, s.mtx = some p ↔ (s.pc p).Locked
  taken : ∀ d, Total (fun p => (s.pc p).taken d) (v.taken d)
  owed : ∀ d, Total (fun p => (s.pc p).owed d) (v.owed d)
  delivered : ∀ d, (s.sema d).callers.delivered = (s.moved d).length + v.taken d + v.lost d
  calls : ∀ d, (s.moved d).length = (s.sema d.other).callers.calls + v.owed d
  order : initial ++ (s.moved .push).map Prod.snd = (s.moved .pop).map Prod.snd ++ s.underlying
  underflow : s.underflow = false
  results : ∀ d p, s.movedBy d p = s.results d p ++ (s.pc p).held d
  starts : ∀ p, s.starts p =
    (s.results .push p).length + (s.results .pop p).length + s.fails p + (s.pc p).busy

@[simp] theorem Kind.other_other (d : Kind) : d.other.other = d := by cases d <;> rfl

@[simp] theorem Kind.other_ne (d : Kind) : d.other ≠ d := by cases d <;> nofun

theorem Kind.other_inj {d e : Kind} : d.other = e.other ↔ d = e :=
  ⟨fun h => by rw [← other_other d, h, other_other], congrArg other⟩

theorem filter_movedBy [DecidableEq ι] [DecidableEq κ] {p : Party ι κ}
    (f : Kind → List (Party ι κ × α)) (d e : Kind) (q : Party ι κ) :
    ((Function.update f d (f d ++ [(p, x)]) e).filter fun m => m.1 = q).map Prod.snd =
      ((f e).filter fun m => m.1 = q).map Prod.snd ++ if e = d ∧ p = q then [x] else [] := by
  by_cases he : e = d
  · subst he
    by_cases hq : p = q <;> simp [hq]
  · simp [he]

/-- What the callers see after a step of the semaphore of `d`. -/
theorem callers_update {f : Kind → AsyncSemaphore.State ι (Party ι κ)} {c : Callers ι (Party ι κ)}
    (h : u.callers = c) :
    (∀ e i, (Function.update f d u e).callers.busy i =
      if e = d then c.busy i else (f e).callers.busy i) ∧
    (∀ e p, (Function.update f d u e).callers.call p =
      if e = d then c.call p else (f e).callers.call p) ∧
    (∀ e, (Function.update f d u e).callers.delivered =
      if e = d then c.delivered else (f e).callers.delivered) ∧
    ∀ e, (Function.update f d u e).callers.calls =
      if e = d then c.calls else (f e).callers.calls := by
  have hall : ∀ e, (Function.update f d u e).callers = if e = d then c else (f e).callers := by
    intro e
    by_cases he : e = d
    · rw [he, Function.update_self, h, if_pos rfl]
    · rw [Function.update_of_ne he, if_neg he]
  refine ⟨fun e i => ?_, fun e p => ?_, fun e => ?_, fun e => ?_⟩ <;> rw [hall] <;> split <;> rfl

variable [DecidableEq ι] [DecidableEq κ] {limit : Nat} {s t : State α ι κ} {v : View}

theorem semaStep_eq (h : s.semaStep limit d a = some t) :
    ∃ u, AsyncSemaphore.step limit (s.sema d) a = some u ∧
      { s with sema := Function.update s.sema d u } = t :=
  Option.map_eq_some_iff.1 h

theorem semaStep_map {f : State α ι κ → State α ι κ} (h : (s.semaStep limit d a).map f = some t) :
    ∃ u, AsyncSemaphore.step limit (s.sema d) a = some u ∧
      f { s with sema := Function.update s.sema d u } = t := by
  obtain ⟨r, hr, rfl⟩ := Option.map_eq_some_iff.1 h
  obtain ⟨u, hu, rfl⟩ := semaStep_eq hr
  exact ⟨u, hu, rfl⟩

theorem Inv.sema_step (h : Inv limit n l s v)
    (hu : AsyncSemaphore.step limit (s.sema d) a = some u) (e : Kind) :
    ∃ w, AsyncSemaphore.Inv limit (permits n l e) (Function.update s.sema d u e) w := by
  by_cases he : e = d
  · rw [he, Function.update_self]
    obtain ⟨w, hw⟩ := h.sema d
    exact hw.step hu
  · rw [Function.update_of_ne he]
    exact h.sema e

attribute [local grind =] Function.update_apply Pc.acquiring Party.call Pc.Locked Pc.taken Pc.owed
  Pc.held Pc.busy Pc.granted Job.kind State.movedBy

/-- An operation that the semaphore is busy with is about to acquire from it. -/
theorem Inv.acquiring (h : Inv limit n l s v) (hb : (s.sema d).callers.busy i = true) :
    ∃ job, s.pc (.op d i) = .acquire job ∧ job.kind = d := by
  rw [h.busy] at hb
  cases hp : s.pc (.op d i) with
  | acquire job => exact ⟨job, rfl, by simpa [hp, Pc.acquiring] using hb⟩
  | _ => simp [hp, Pc.acquiring] at hb

/-- A thread in `try_acquire()` is about to acquire its permit. -/
theorem Inv.trying (h : Inv limit n l s v)
    (hc : (s.sema d).callers.call (.thread k) = some .tryAcquire) :
    ∃ job, s.pc (.thread k) = .acquire job ∧ job.kind = d := by
  rw [h.call] at hc
  cases hp : s.pc (.thread k) with
  | acquire job =>
    rw [hp] at hc
    exact ⟨job, rfl, by_contra fun hd => by simp [Party.call, hd] at hc⟩
  | releasing e value => simp [hp, Party.call] at hc
  | _ => simp [hp, Party.call] at hc

theorem Inv.init (h : n ≤ limit) (hl : l.length ≤ limit) :
    Inv limit n l (system α ι κ limit n l).init {} := by
  constructor
  case sema =>
    rintro (_ | _)
    · exact ⟨{}, AsyncSemaphore.Inv.init (κ := Party ι κ) h⟩
    · exact ⟨{}, AsyncSemaphore.Inv.init (κ := Party ι κ) hl⟩
  case busy => rintro (_ | _) i <;> rfl
  case call => rintro (_ | _) (_ | _) <;> rfl
  case delivered => rintro (_ | _) <;> rfl
  case calls => rintro (_ | _) <;> rfl
  all_goals simp [system, Pc.Locked, Pc.taken, Pc.owed, Pc.held, Pc.busy, Total.zero,
    State.movedBy]

/-- A step of a semaphore that its callers do not see. -/
theorem Inv.semaStep_internal (h : Inv limit n l s v) (ha : a.internal)
    (hs : s.semaStep limit d a = some t) : Inv limit n l t v := by
  obtain ⟨u, hu, rfl⟩ := semaStep_eq hs
  obtain ⟨w, hw⟩ := h.sema d
  have hc := hw.callers_internal ha hu
  have hall : ∀ e, (Function.update s.sema d u e).callers = (s.sema e).callers := by
    intro e
    by_cases he : e = d
    · rw [he, Function.update_self, hc]
    · rw [Function.update_of_ne he]
  exact { h with
    sema := h.sema_step hu
    busy := fun e i => by rw [hall, h.busy]
    call := fun e p => by rw [hall, h.call]
    delivered := fun e => by rw [hall, h.delivered]
    calls := fun e => by rw [hall, h.calls]
    results := h.results }

end Coio.Fifo
