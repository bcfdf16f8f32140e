import Coio.OpQueue.Steps

namespace Coio.OpQueue
open Function (update)
open Linked
open Queue (Event)
open Transition
set_option autoImplicit true

/-- The nodes of a call that is not published yet. -/
def State.inFlight (s : State ι κ) (k : κ) : List (List ι) :=
  if s.batch k = [] then [] else [s.batch k]

/-- What `dequeue()` is about to return. -/
def ConsumerPc.result : ConsumerPc ι → List (Option ι)
  | .returned op => [op]
  | _ => []

variable [DecidableEq κ] {s t : State ι κ} {c b a : List ι}

/-- The effects are those of the calls, one for each, between its start and its return. -/
structure Recorded (s : State ι κ) : Prop where
  calls : ∀ k, Queue.putsOf k s.history ++ s.inFlight k = s.calls k
  results : Queue.takes s.history = s.results ++ s.consumer.result

theorem Recorded.init : Recorded ({} : State ι κ) := ⟨fun _ => rfl, rfl⟩

variable [DecidableEq ι]

theorem Recorded.accept (hr : Recorded s) (h : Layout s c b a) (hk : s.producer k = .idle)
    (l : List ι) (pc : ProducerPc ι) : Recorded ((s.accept k l).goto k pc) := by
  refine ⟨fun j => ?_, hr.results⟩
  have hc := hr.calls j
  have hempty : s.batch k = [] := by
    have := h.producer k
    rwa [hk] at this
  by_cases hj : j = k
  · subst hj
    rw [State.inFlight, if_pos hempty, List.append_nil] at hc
    by_cases hl : l = []
    · simp [State.goto, State.accept, State.give, State.inFlight, hl, hc]
    · simp [State.goto, State.accept, State.give, State.inFlight, hl, hc]
  · by_cases hl : l = []
    · simpa [State.goto, State.accept, State.give, State.inFlight, hl, hj] using hc
    · simpa [State.goto, State.accept, State.give, State.inFlight, hl, hj] using hc

theorem Recorded.publish (hr : Recorded s) (hne : s.batch k ≠ []) (head : Option ι) :
    Recorded { (s.give (s.batch k) .queue).goto k .idle with
      incoming := head
      batch := update s.batch k []
      history := s.history ++ [.put k (s.batch k)] } := by
  refine ⟨fun j => ?_, by simpa [State.goto, State.give] using hr.results⟩
  have hc := hr.calls j
  by_cases hj : j = k
  · subst hj
    rw [State.inFlight, if_neg hne] at hc
    simpa [State.goto, State.give, State.inFlight] using hc
  · simpa [State.goto, State.give, State.inFlight, hj, Ne.symm hj] using hc

theorem Recorded.step (hr : Recorded s) (h : Layout s c b a) (hs : step s act = some t) :
    Recorded t := by
  have hmove : ∀ {pc}, (pc : ConsumerPc ι).result = s.consumer.result →
      Queue.takes s.history = s.results ++ pc.result := fun he => he ▸ hr.results
  cases act with
  | setNext x v =>
    obtain ⟨-, rfl⟩ := enabled_iff.1 hs
    exact ⟨hr.calls, hr.results⟩
  | enqueue k op chain =>
    simp only [OpQueue.step] at hs
    split at hs
    case h_1 hk =>
      obtain ⟨-, rfl⟩ := enabled_iff.1 hs
      exact hr.accept h hk ..
    case h_2 => cases hs
  | bulkEnqueue k ops =>
    simp only [OpQueue.step] at hs
    split at hs
    case h_1 hk =>
      obtain ⟨-, rfl⟩ := enabled_iff.1 hs
      exact hr.accept h hk ..
    case h_2 => cases hs
  | reverse k =>
    simp only [OpQueue.step] at hs
    split at hs <;> cases hs
    exact ⟨hr.calls, hr.results⟩
  | gather k =>
    simp only [OpQueue.step] at hs
    split at hs
    case h_1 | h_2 =>
      cases hs
      exact ⟨hr.calls, hr.results⟩
    case h_3 =>
      obtain ⟨x, -, rfl⟩ := Option.map_eq_some_iff.1 hs
      exact ⟨hr.calls, hr.results⟩
    case h_4 => cases hs
  | load k old =>
    simp only [OpQueue.step] at hs
    split at hs <;> cases hs
    exact ⟨hr.calls, hr.results⟩
  | link k =>
    simp only [OpQueue.step] at hs
    split at hs <;> cases hs
    exact ⟨hr.calls, hr.results⟩
  | cas k =>
    simp only [OpQueue.step] at hs
    split at hs
    case h_1 head tail old hk =>
      obtain ⟨-, rfl⟩ := enabled_iff.1 hs
      have hp := h.producer k
      rw [hk] at hp
      obtain ⟨⟨w, hw, -⟩, -⟩ := hp
      exact hr.publish (by simp [hw]) _
    case h_2 => cases hs
  | casFail k old =>
    simp only [OpQueue.step] at hs
    split at hs <;> cases hs
    exact ⟨hr.calls, hr.results⟩
  | dequeue =>
    simp only [OpQueue.step] at hs
    split at hs
    case h_1 hc =>
      cases hs
      refine ⟨hr.calls, hmove ?_⟩
      rw [hc]
      split <;> rfl
    case h_2 => cases hs
  | exchange =>
    simp only [OpQueue.step] at hs
    split at hs
    case h_1 hc =>
      split at hs
      case h_1 =>
        cases hs
        refine ⟨fun k => by simpa [State.inFlight] using hr.calls k, ?_⟩
        have := hr.results
        rw [hc] at this
        simpa [ConsumerPc.result] using this
      case h_2 =>
        cases hs
        refine ⟨hr.calls, hmove ?_⟩
        rw [hc]
        rfl
    case h_2 => cases hs
  | reverseIncoming =>
    simp only [OpQueue.step] at hs
    split at hs
    case h_1 hc =>
      split at hs
      case h_1 | h_2 =>
        cases hs
        refine ⟨hr.calls, hmove ?_⟩
        rw [hc]
        rfl
    case h_2 => cases hs
  | pop =>
    simp only [OpQueue.step] at hs
    split at hs
    case h_1 hc =>
      obtain ⟨x, -, rfl⟩ := Option.map_eq_some_iff.1 hs
      refine ⟨fun k => by simpa [State.inFlight, State.give, State.setNext] using hr.calls k, ?_⟩
      have := hr.results
      rw [hc] at this
      simpa [ConsumerPc.result, State.give, State.setNext] using this
    case h_2 => cases hs
  | done =>
    simp only [OpQueue.step] at hs
    split at hs
    case h_1 hc =>
      cases hs
      refine ⟨hr.calls, ?_⟩
      have := hr.results
      rw [hc] at this
      simpa [ConsumerPc.result, State.give] using this
    case h_2 => cases hs

theorem reachable_recorded (hs : (system ι κ).Reachable s) : Recorded s := by
  induction hs with
  | init => exact .init
  | step hr hs ih =>
    obtain ⟨c, b, a, h⟩ := reachable_layout hr
    exact ih.step h hs

/-- The consumer alone gets every node that has been published. -/
theorem Layout.drain (h : Layout s c b a) : ∃ acts t, (∀ act ∈ acts, act.consumes = true) ∧
    (system ι κ).exec s acts = some t ∧
    (Queue.takes t.history).reduceOption = Queue.puts s.history := by
  induction hw : work c b a s.consumer using Nat.strongRecOn generalizing s c b a with
  | ind n ih =>
    by_cases hq : b ++ a ++ c = []
    · have hr := Queue.replay_fifo h.replay
      simp only [List.append_eq_nil_iff] at hq
      obtain ⟨⟨rfl, rfl⟩, rfl⟩ := hq
      exact ⟨[], s, by simp, rfl, by simpa using hr.symm⟩
    · obtain ⟨act, hact, u, c', b', a', hu, hl, hputs, hlt⟩ := h.advances
      obtain ⟨acts, t, hacts, ht, htakes⟩ := ih _ (hw ▸ hlt hq) hl rfl
      refine ⟨act :: acts, t, ?_, ?_, htakes.trans hputs⟩
      · intro x hx
        rcases List.mem_cons.1 hx with rfl | hx
        · exact hact
        · exact hacts x hx
      · exact Option.bind_eq_some_iff.2 ⟨u, hu, ht⟩

/-- The operations take effect one after the other as on a sequential queue: each call of a producer
at its successful compare-exchange, with its nodes in their order; each `dequeue()` when it takes a
node, or at its exchange when there is none. A node that comes out has a null link, and whatever is
published can be dequeued. -/
theorem op_queue_linearizable (hs : (system ι κ).Reachable s) :
    (∃ q, Queue.replay [] s.history = some q ∧ q.Nodup ∧
      Queue.puts s.history = (Queue.takes s.history).reduceOption ++ q) ∧
    (∀ k, Queue.putsOf k s.history ++ s.inFlight k = s.calls k) ∧
    Queue.takes s.history = s.results ++ s.consumer.result ∧
    (∀ h h', s.history = h ++ .take none :: h' →
      Queue.puts h = (Queue.takes h).reduceOption) ∧
    (∀ x, s.consumer = .returned (some x) → s.next x = none) ∧
    ∃ acts t, (∀ act ∈ acts, act.consumes = true) ∧ (system ι κ).exec s acts = some t ∧
      (Queue.takes t.history).reduceOption = Queue.puts s.history := by
  obtain ⟨c, b, a, h⟩ := reachable_layout hs
  have hr := reachable_recorded hs
  refine ⟨⟨_, h.replay, h.nodup, ?_⟩, hr.calls, hr.results, ?_, ?_, h.drain⟩
  · simpa using Queue.replay_fifo h.replay
  · intro p q hpq
    have := h.replay
    rw [hpq] at this
    simpa using Queue.replay_take_none this
  · intro x hx
    have := h.consumer
    rw [hx] at this
    exact this.2.2 x rfl

/-- A chain of three nodes loses the first compare-exchange against two nodes in bulk. -/
def chainRun : List (Act Nat Bool) :=
  [.setNext 1 (some 2), .setNext 2 (some 3), .enqueue false 1 [1, 2, 3], .reverse false,
    .bulkEnqueue true [4, 5], .reverse false, .gather true, .reverse false, .load false none,
    .gather true, .gather true, .load true none, .link false, .link true, .cas true,
    .casFail false (some 5), .link false, .cas false, .dequeue, .exchange, .reverseIncoming,
    .reverseIncoming, .reverseIncoming, .reverseIncoming, .reverseIncoming, .pop, .done, .dequeue,
    .pop]

theorem op_queue_linearizable_chain : ∃ s,
    (system Nat Bool).exec (system Nat Bool).init chainRun = some s ∧ s.results = [some 4] ∧
    s.next 5 = none ∧ Queue.puts s.history = [4, 5, 1, 2, 3] ∧ ∃ acts t,
      (∀ act ∈ acts, act.consumes = true) ∧ (system Nat Bool).exec s acts = some t ∧
      (Queue.takes t.history).reduceOption = [4, 5, 1, 2, 3] := by
  refine ⟨_, rfl, rfl, ?_, rfl, ?_⟩
  · exact (op_queue_linearizable ((system Nat Bool).reachable_exec chainRun rfl)).2.2.2.2.1 5 rfl
  · exact (op_queue_linearizable ((system Nat Bool).reachable_exec chainRun rfl)).2.2.2.2.2

end Coio.OpQueue
