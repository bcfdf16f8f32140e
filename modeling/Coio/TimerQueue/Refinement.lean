import Mathlib.Data.Finset.Basic
import Mathlib.Data.Finset.Card
import Mathlib.Data.Finset.Max
import Coio.TimerQueue.WellFormed

namespace Coio.TimerQueue
open PairingHeap
set_option autoImplicit true

variable [LinearOrder δ]

/-- The queue holds exactly the nodes of a finite set. -/
def Represents (q : TimerQueue Op δ) (S : Finset Op) : Prop :=
  ∃ t, Spells q t ∧ ∀ x, x ∈ nodesOf t ↔ x ∈ S

theorem Represents.init (deadline : Op → δ) : Represents { deadline } ∅ :=
  ⟨none, ⟨rfl, nofun, .nil, nofun, fun _ _ => rfl⟩, by simp⟩

theorem Represents.earliest {q : TimerQueue Op δ} {S : Finset Op} (h : Represents q S) (d : δ) :
    q.earliest = some d ↔ (∃ x ∈ S, q.deadline x = d) ∧ ∀ x ∈ S, d ≤ q.deadline x := by
  obtain ⟨t, ht, hS⟩ := h
  rw [earliest_spec ht]
  simp only [hS]

/-- No node of the queue has a deadline before that of `earliest()`. -/
theorem Represents.earliest_le {q : TimerQueue Op δ} {S : Finset Op} (h : Represents q S)
    (hx : x ∈ S) : ∃ d, q.earliest = some d ∧ d ≤ q.deadline x := by
  obtain ⟨y, hy, hmin⟩ := S.exists_min_image q.deadline ⟨x, hx⟩
  exact ⟨q.deadline y, (h.earliest _).2 ⟨⟨y, hy, rfl⟩, hmin⟩, hmin x hx⟩

variable [DecidableEq Op]

/-- The queues that sequences of operations lead to. The set has the nodes that are meant to be
linked; it bounds the iterations of the loops. -/
inductive Run : TimerQueue Op δ → Finset Op → Prop
  | init (deadline : Op → δ) : Run { deadline } ∅
  | setDeadline : Run q S → x ∉ S → Run { q with deadline := Function.update q.deadline x d } S
  | add : Run q S → x ∉ S → Run (q.add x).1 (insert x S)
  | remove : Run q S → S.card ≤ fuel → q.remove fuel x = some (q', b) → Run q' (S.erase x)
  | takeReadyTimers : Run q S → S.card ≤ fuel → S.card ≤ n →
      q.takeReadyTimers fuel now n list = some (q', list') →
      Run q' (S.filter fun x => now < q.deadline x)

variable {q : TimerQueue Op δ}

theorem Spells.card {S : Finset Op} (h : Spells q t) (hS : ∀ x, x ∈ nodesOf t ↔ x ∈ S) :
    (nodesOf t).length = S.card := by
  rw [← List.toFinset_card_of_nodup h.nodup]
  refine congrArg _ (Finset.ext fun x => ?_)
  rw [List.mem_toFinset, hS]

/-- The deadline of a node may change while the node is not linked. -/
theorem Represents.setDeadline (h : Represents q S) (hx : x ∉ S) (d : δ) :
    Represents { q with deadline := Function.update q.deadline x d } S := by
  obtain ⟨t, ht, hS⟩ := h
  refine ⟨t, ⟨ht.root, ht.tree, ht.nodup, fun r hr => ?_, ht.unlinked⟩, hS⟩
  have hk : ∀ y ∈ nodesOf t, Function.update q.deadline x d y = q.deadline y := fun y hy =>
    Function.update_of_ne (fun he : y = x => hx (he ▸ (hS y).1 hy)) ..
  obtain rfl := Option.mem_def.1 hr
  obtain ⟨ho, hoc⟩ := ht.ordered r rfl
  refine ⟨fun y hy => ?_, hoc.congr fun y hy => hk y (List.mem_cons_of_mem _ hy)⟩
  dsimp only
  rw [hk r.root List.mem_cons_self, hk y (List.mem_cons_of_mem _ hy)]
  exact ho y hy

theorem Represents.add (h : Represents q S) (hx : x ∉ S) :
    Represents (q.add x).1 (insert x S) ∧ (q.add x).1.deadline = q.deadline ∧
      ((q.add x).2 = true ↔ ∀ y ∈ S, q.deadline x < q.deadline y) := by
  obtain ⟨t, ht, hS⟩ := h
  obtain ⟨t', ht', hp, hk, hnew⟩ := add_spec ht fun hm => hx ((hS x).1 hm)
  refine ⟨⟨t', ht', fun y => ?_⟩, hk, ?_⟩
  · rw [hp.mem_iff, List.mem_cons, hS, Finset.mem_insert]
  · rw [hnew]
    exact forall_congr' fun y => by rw [hS]

theorem Represents.remove (h : Represents q S) (hfuel : S.card ≤ fuel) :
    ∃ q', q.remove fuel x = some (q', decide (x ∈ S)) ∧ Represents q' (S.erase x) ∧
      q'.deadline = q.deadline := by
  obtain ⟨t, ht, hS⟩ := h
  by_cases hx : x ∈ S
  · rw [← ht.card hS] at hfuel
    obtain ⟨q', t', hq', ht', hp, hk⟩ := remove_spec ht ((hS x).2 hx) hfuel
    have hn := hp.nodup_iff.2 ht.nodup
    refine ⟨q', by simp [hq', hx], ⟨t', ht', fun y => ?_⟩, hk⟩
    rw [Finset.mem_erase, ← hS, ← hp.mem_iff, List.mem_cons]
    have hxt := (List.nodup_cons.1 hn).1
    grind
  · refine ⟨q, by simp [remove_of_notMem ht (mt (hS x).1 hx), hx], ?_, rfl⟩
    rw [Finset.erase_eq_of_notMem hx]
    exact ⟨t, ht, hS⟩

theorem Represents.takeReadyTimers (h : Represents q S) (now : δ) (list : List Op)
    (hfuel : S.card ≤ fuel) (hn : S.card ≤ n) :
    ∃ q' ready, q.takeReadyTimers fuel now n list = some (q', list ++ ready) ∧
      Represents q' (S.filter fun x => now < q.deadline x) ∧ q'.deadline = q.deadline ∧
      ready.Nodup ∧ (∀ x, x ∈ ready ↔ x ∈ S ∧ q.deadline x ≤ now) ∧
      ready.Pairwise (fun x y => q.deadline x ≤ q.deadline y) ∧ ∀ x ∈ ready, q'.links x = {} := by
  obtain ⟨t, ht, hS⟩ := h
  rw [← ht.card hS] at hfuel hn
  obtain ⟨q', t', ready, hq', ht', hk, hp, hle, hlt, hsorted⟩ := takeReadyTimers_spec ht hfuel hn
  obtain ⟨hnr, -, hd⟩ := List.nodup_append.1 (hp.nodup_iff.2 ht.nodup)
  have hsplit : ∀ x, x ∈ S ↔ x ∈ ready ∨ x ∈ nodesOf t' := fun x => by
    rw [← hS, ← hp.mem_iff, List.mem_append]
  refine ⟨q', ready, hq', ⟨t', ht', fun x => ?_⟩, hk, hnr, fun x => ?_, hsorted, fun x hx => ?_⟩
  · rw [Finset.mem_filter, hsplit]
    have := hle x
    have := hlt x
    grind
  · rw [hsplit]
    have := hle x
    have := hlt x
    grind
  · exact ht'.unlinked x fun hx' => hd x hx x hx' rfl

theorem Run.represents {S : Finset Op} (h : Run q S) : Represents q S := by
  induction h with
  | init deadline => exact .init deadline
  | setDeadline _ hx ih => exact ih.setDeadline hx _
  | add _ hx ih => exact (ih.add hx).1
  | remove _ hfuel hq ih =>
    obtain ⟨q₁, hq₁, h₁, -⟩ := ih.remove hfuel
    rw [hq] at hq₁
    cases hq₁
    exact h₁
  | takeReadyTimers _ hfuel hn hq ih =>
    obtain ⟨q₁, ready, hq₁, h₁, -⟩ := ih.takeReadyTimers _ _ hfuel hn
    rw [hq] at hq₁
    cases hq₁
    exact h₁

/-- The timer queue is a finite set of nodes with deadlines. -/
theorem refines_finset {S : Finset Op} (h : Run q S) :
    WellFormed q ∧
    (∀ x, x ∈ S ↔ q.root = some x ∨ (q.links x).prev ≠ none) ∧
    (∀ x ∉ S, Run (q.add x).1 (insert x S) ∧ (q.add x).1.deadline = q.deadline ∧
      ((q.add x).2 = true ↔ S = ∅ ∨ ∀ y ∈ S, q.deadline x < q.deadline y)) ∧
    (∀ x fuel, S.card ≤ fuel → ∃ q', q.remove fuel x = some (q', decide (x ∈ S)) ∧
      Run q' (S.erase x) ∧ q'.deadline = q.deadline) ∧
    (∀ d, q.earliest = some d ↔ (∃ x ∈ S, q.deadline x = d) ∧ ∀ x ∈ S, d ≤ q.deadline x) ∧
    ∀ now fuel n list, S.card ≤ fuel → S.card ≤ n →
      ∃ q' ready, q.takeReadyTimers fuel now n list = some (q', list ++ ready) ∧
        Run q' (S.filter fun x => now < q.deadline x) ∧ q'.deadline = q.deadline ∧
        ready.Nodup ∧ (∀ x, x ∈ ready ↔ x ∈ S ∧ q.deadline x ≤ now) ∧
        ready.Pairwise (fun x y => q.deadline x ≤ q.deadline y) ∧ ∀ x ∈ ready, q'.links x = {} := by
  have hr := h.represents
  obtain ⟨t, ht, hS⟩ := h.represents
  refine ⟨ht.wellFormed, fun x => ?_, fun x hx => ?_, fun x fuel hfuel => ?_, hr.earliest,
    fun now fuel n list hfuel hn => ?_⟩
  · rw [← hS, ht.mem_iff]
  · obtain ⟨-, hk, hnew⟩ := hr.add hx
    refine ⟨h.add hx, hk, hnew.trans ⟨.inr, ?_⟩⟩
    rintro (rfl | hall)
    · simp
    · exact hall
  · obtain ⟨q', hq', -, hk⟩ := hr.remove hfuel
    exact ⟨q', hq', h.remove hfuel hq', hk⟩
  · obtain ⟨q', ready, hq', -, hk, hready⟩ := hr.takeReadyTimers _ list hfuel hn
    exact ⟨q', ready, hq', h.takeReadyTimers hfuel hn hq', hk, hready⟩

theorem refines_finset_two :
    ∃ q : TimerQueue Nat Nat, Run q {1, 2} ∧ q.earliest = some 1 ∧
      ∃ q', q.remove 2 1 = some (q', true) ∧ Run q' {2} ∧ q'.earliest = some 2 := by
  have h := ((Run.init (id : Nat → Nat)).add (x := 2) (by decide)).add (x := 1) (by decide)
  obtain ⟨-, -, -, hremove, hearliest, -⟩ := refines_finset h
  refine ⟨_, h, (hearliest 1).2 ⟨⟨1, by decide, rfl⟩, by decide⟩, ?_⟩
  obtain ⟨q', hq', hrun, hdeadline⟩ := hremove 1 2 (by decide)
  refine ⟨q', hq', hrun, ?_⟩
  obtain ⟨-, -, -, -, hearliest', -⟩ := refines_finset hrun
  rw [hearliest', hdeadline]
  exact ⟨⟨2, by decide, rfl⟩, by decide⟩

end Coio.TimerQueue
