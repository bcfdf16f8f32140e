import Coio.OpQueue.Layout
import Mathlib.Data.List.Nodup

namespace Coio.OpQueue
open Function (update)
open Linked
open Queue (Event)
open Transition
set_option autoImplicit true

variable [DecidableEq ι] [DecidableEq κ] {s t : State ι κ} {c b a : List ι}

/-- One turn of the loop in `reverse()`. -/
theorem turn {next : ι → Option ι} {node : ι} {reversed : Option ι} (ha : Chain next a reversed)
    (hb : Chain next b (some node)) (hn : (a.reverse ++ b).Nodup) :
    ∃ b', b = node :: b' ∧ Chain (update next node reversed) (node :: a) (some node) ∧
      Chain (update next node reversed) b' (next node) := by
  obtain ⟨b', rfl, hb'⟩ := hb.of_some
  rw [List.nodup_append, List.nodup_cons] at hn
  obtain ⟨-, ⟨hnb, -⟩, hd⟩ := hn
  refine ⟨b', rfl, ha.push fun hx => ?_, hb'.update hnb reversed⟩
  exact hd node (List.mem_reverse.2 hx) node List.mem_cons_self rfl

theorem Layout.reverse (h : Layout s c b a) (hs : step s (.reverse k) = some t) :
    Layout t c b a := by
  simp only [step] at hs
  split at hs
  case h_1 op reversed node hk =>
    cases hs
    have hp := h.producer k
    rw [hk] at hp
    obtain ⟨w, u, hl, hop, hw, hu⟩ := hp
    have hnd := h.batch_nodup k
    rw [hl] at hnd
    obtain ⟨u, rfl, hw', hu'⟩ := turn hw hu hnd
    have hmem : node ∈ s.batch k := by simp [hl]
    refine h.write hmem ?_
    cases hn : s.next node with
    | none =>
      -- the loop ends at the last node, and the path back leads to `op`
      rw [hn] at hu'
      obtain rfl := hu'.of_none
      obtain ⟨x, hx⟩ : ∃ x, s.batch k = op :: x := List.head?_eq_some_iff.1 hop
      have hlast : node :: w = x.reverse ++ [op] := by
        rw [hx] at hl
        simpa using (congrArg List.reverse hl).symm
      rw [hlast] at hw'
      refine ⟨x.reverse, by simp [hx], hw'.path⟩
    | some next =>
      rw [hn] at hu'
      exact ⟨node :: w, u, by simp [hl], hop, hw', hu'⟩
  case h_2 => cases hs

theorem Layout.gather (h : Layout s c b a) (hs : step s (.gather k) = some t) :
    Layout t c b a := by
  simp only [step] at hs
  split at hs
  case h_1 head tail op ops hk =>
    cases hs
    have hp := h.producer k
    rw [hk] at hp
    obtain ⟨w, hl, hw, htail⟩ := hp
    have hnd := h.batch_nodup k
    rw [hl, List.nodup_append] at hnd
    obtain ⟨-, -, hd⟩ := hnd
    have hopw : op ∉ w := fun hx => hd op (List.mem_reverse.2 hx) op List.mem_cons_self rfl
    refine h.write (by simp [hl]) ⟨op :: w, by simp [hl], hw.push hopw, ?_⟩
    rw [htail]
    cases hlast : w.getLast? with
    | none =>
      obtain rfl := List.getLast?_eq_none_iff.1 hlast
      rfl
    | some x => simp [List.getLast?_cons, hlast]
  case h_2 tail hk =>
    cases hs
    have hp := h.producer k
    rw [hk] at hp
    obtain ⟨w, hl, hw, -⟩ := hp
    obtain rfl := hw.of_none
    exact h.goto hl
  case h_3 head tail hk =>
    obtain ⟨x, rfl, hs⟩ := Option.map_eq_some_iff.1 hs
    cases hs
    have hp := h.producer k
    rw [hk] at hp
    obtain ⟨w, hl, hw, htail⟩ := hp
    obtain ⟨w, rfl⟩ := List.getLast?_eq_some_iff.1 htail.symm
    exact h.goto ⟨w, by simpa using hl, hw.path⟩
  case h_4 => cases hs

theorem Layout.load (h : Layout s c b a) (hs : step s (.load k old) = some t) : Layout t c b a := by
  simp only [step] at hs
  split at hs
  case h_1 head tail hk =>
    cases hs
    have hp := h.producer k
    rw [hk] at hp
    exact h.goto hp
  case h_2 => cases hs

theorem Layout.link (h : Layout s c b a) (hs : step s (.link k) = some t) : Layout t c b a := by
  simp only [step] at hs
  split at hs
  case h_1 head tail old hk =>
    cases hs
    have hp := h.producer k
    rw [hk] at hp
    obtain ⟨w, hl, hw⟩ := hp
    have hnd := h.batch_nodup k
    rw [hl, List.nodup_reverse, List.nodup_append] at hnd
    obtain ⟨-, -, hd⟩ := hnd
    refine h.write (by simp [hl]) ⟨⟨w, hl, hw.frame fun y hy => ?_⟩, Function.update_self ..⟩
    exact Function.update_of_ne (hd y hy tail (by simp)) ..
  case h_2 => cases hs

theorem Layout.casFail (h : Layout s c b a) (hs : step s (.casFail k old) = some t) :
    Layout t c b a := by
  simp only [step] at hs
  split at hs
  case h_1 head tail old hk =>
    cases hs
    have hp := h.producer k
    rw [hk] at hp
    exact h.goto hp.1
  case h_2 => cases hs

/-- What a producer does up to its compare-exchange leaves the queue as it is. -/
theorem Layout.produce (h : Layout s c b a) (hs : step s act = some t)
    (ha : act.consumes = false) : ∃ c, Layout t c b a := by
  cases act with
  | setNext x v =>
    obtain ⟨hx, rfl⟩ := enabled_iff.1 hs
    exact ⟨c, h.setNext hx v⟩
  | enqueue k op chain =>
    simp only [step] at hs
    split at hs
    case h_1 hk =>
      obtain ⟨⟨hown, hchain⟩, rfl⟩ := enabled_iff.1 hs
      refine ⟨c, h.accept hk hown ⟨[], chain, rfl, ?_, rfl, hchain⟩⟩
      exact hchain.head?.symm
    case h_2 => cases hs
  | bulkEnqueue k ops =>
    simp only [step] at hs
    split at hs
    case h_1 hk =>
      obtain ⟨hown, rfl⟩ := enabled_iff.1 hs
      exact ⟨c, h.accept hk hown ⟨[], rfl, rfl, rfl⟩⟩
    case h_2 => cases hs
  | reverse k => exact ⟨c, h.reverse hs⟩
  | gather k => exact ⟨c, h.gather hs⟩
  | load k old => exact ⟨c, h.load hs⟩
  | link k => exact ⟨c, h.link hs⟩
  | cas k =>
    simp only [step] at hs
    split at hs
    case h_1 head tail old hk =>
      obtain ⟨ho, rfl⟩ := enabled_iff.1 hs
      exact ⟨_, h.publish hk ho⟩
    case h_2 => cases hs
  | casFail k old => exact ⟨c, h.casFail hs⟩
  | dequeue => cases ha
  | exchange => cases ha
  | reverseIncoming => cases ha
  | pop => cases ha
  | done => cases ha

/-- How many more steps the consumer may need to empty the queue. -/
def work (c b a : List ι) (pc : ConsumerPc ι) : Nat :=
  5 * c.length + 5 * b.length + 4 * a.length + match pc with
    | .idle => 2
    | .exchange => 1
    | .reverse _ _ => 0
    | .pop => 0
    | .returned _ => 3

/-- The consumer can take the step, which brings it closer to the end of the queue. -/
def Advances (s : State ι κ) (c b a : List ι) (act : Act ι κ) : Prop :=
  ∃ t c' b' a', step s act = some t ∧ Layout t c' b' a' ∧
    Queue.puts t.history = Queue.puts s.history ∧
    (b ++ a ++ c ≠ [] → work c' b' a' t.consumer < work c b a s.consumer)

theorem Layout.dequeue (h : Layout s c b a) (hc : s.consumer = .idle) :
    Advances s c b a .dequeue := by
  have hh := h.consumer
  rw [hc] at hh
  obtain ⟨rfl, ha⟩ := hh
  refine ⟨{ s with consumer := if s.front = none then .exchange else .pop }, c, [], a,
    by simp only [step, hc], ?_, rfl, fun _ => ?_⟩
  · refine { h with consumer := ?_, of_consumer := fun x => ?_ }
    · cases hf : s.front with
      | none =>
        rw [hf] at ha
        exact ⟨rfl, ha.of_none, rfl⟩
      | some x =>
        rw [hf] at ha
        obtain ⟨a', rfl, -⟩ := ha.of_some
        exact ⟨rfl, by simp, ha⟩
    · have := h.of_consumer x
      split <;> simp_all
  · simp only [work, hc]
    split_ifs <;> simp

theorem Layout.exchange (h : Layout s c b a) (hc : s.consumer = .exchange) :
    Advances s c b a .exchange := by
  have hh := h.consumer
  rw [hc] at hh
  obtain ⟨rfl, rfl, hf⟩ := hh
  have hown := h.of_consumer
  cases hi : s.incoming with
  | none =>
    have hcs := h.incoming
    rw [hi] at hcs
    obtain rfl := hcs.of_none
    refine ⟨{ s with consumer := .returned none, history := s.history ++ [.take none] }, [], [], [],
      by simp only [step, hc, hi], ?_, by simp, fun hne => absurd rfl hne⟩
    refine { h with replay := ?_, consumer := ⟨rfl, hf, ?_⟩, of_consumer := ?_ }
    · exact Queue.replay_concat h.replay _
    · intro x hx
      cases hx
    · intro x
      simp [hown x, hc]
  | some node =>
    have hcs := h.incoming
    rw [hi] at hcs
    refine ⟨{ s with incoming := none, consumer := .reverse none node }, [], c, [],
      by simp only [step, hc, hi], ?_, rfl, fun _ => ?_⟩
    · refine { h with replay := ?_, nodup := ?_, incoming := rfl, consumer := ⟨hf, rfl, hcs⟩,
                      of_queue := ?_, of_consumer := ?_ }
      · simpa using h.replay
      · simpa using h.nodup
      · simpa using h.of_queue
      · intro x
        simp [hown x, hc]
    · simp [work, hc]

theorem Layout.reverseIncoming (h : Layout s c b a) (hc : s.consumer = .reverse reversed node) :
    Advances s c b a .reverseIncoming := by
  have hh := h.consumer
  rw [hc] at hh
  obtain ⟨hf, ha, hb⟩ := hh
  have hnd := h.nodup
  have hba : (a.reverse ++ b).Nodup := by
    have := (List.nodup_append.1 hnd).1
    rw [← List.nodup_reverse] at this
    simpa using this
  obtain ⟨b, rfl, ha', hb'⟩ := turn ha hb hba
  have hown : s.owner node = .queue := (h.of_queue node).2 (.inl List.mem_cons_self)
  have hcons := h.of_consumer
  obtain ⟨-, -, hp⟩ := h.frame (x := node) reversed
  have hinc : Chain (update s.next node reversed) c s.incoming := by
    refine h.incoming.update (fun hx => ?_) _
    have := (List.nodup_append.1 hnd).2.2 node (by simp) node (by simp [hx])
    exact this rfl
  have hprod : ∀ k, Prepares (update s.next node reversed) (s.batch k) (s.producer k) :=
    fun k => hp k (by simp [hown])
  cases hn : s.next node with
  | none =>
    rw [hn] at hb'
    obtain rfl := hb'.of_none
    refine ⟨{ s.setNext node reversed with front := some node, consumer := .pop }, c, [], node :: a,
      by simp only [step, hc, hn], ?_, rfl, fun _ => ?_⟩
    · refine { h with replay := ?_, nodup := ?_, incoming := hinc, producer := hprod,
                      consumer := ⟨rfl, by simp, ha'⟩, of_queue := ?_, of_consumer := ?_ }
      · simpa [State.setNext] using h.replay
      · simpa using hnd
      · simpa [State.setNext, or_assoc] using h.of_queue
      · intro x
        simp [hcons x, hc, State.setNext]
    · simp only [work, hc, List.length_cons, List.length_nil]
      omega
  | some next =>
    rw [hn] at hb'
    refine ⟨{ s.setNext node reversed with consumer := .reverse (some node) next }, c, b, node :: a,
      by simp only [step, hc, hn], ?_, rfl, fun _ => ?_⟩
    · refine { h with replay := ?_, nodup := ?_, incoming := hinc, producer := hprod,
                      consumer := ⟨hf, ha', hb'⟩, of_queue := ?_, of_consumer := ?_ }
      · simpa [State.setNext] using h.replay
      · simpa using hnd
      · intro x
        have := h.of_queue x
        simp only [List.mem_cons] at this ⊢
        simp only [State.setNext]
        grind
      · intro x
        simp [hcons x, hc, State.setNext]
    · simp only [work, hc, List.length_cons]
      omega

theorem Layout.pop (h : Layout s c b a) (hc : s.consumer = .pop) : Advances s c b a .pop := by
  have hh := h.consumer
  rw [hc] at hh
  obtain ⟨rfl, hne, ha⟩ := hh
  obtain ⟨x, a, rfl⟩ := List.exists_cons_of_ne_nil hne
  obtain ⟨hf, ha⟩ := ha
  have hnd := h.nodup
  simp only [List.reverse_nil, List.nil_append, List.cons_append, List.nodup_cons] at hnd
  obtain ⟨hx, hnd⟩ := hnd
  have hxa : x ∉ a := fun hm => hx (by simp [hm])
  have hxc : x ∉ c := fun hm => hx (by simp [hm])
  have hown : s.owner x = .queue := (h.of_queue x).2 (.inr (.inl List.mem_cons_self))
  obtain ⟨-, -, hp⟩ := h.frame (x := x) none
  refine ⟨{ (s.setNext x none).give [x] .consumer with
      front := s.next x
      consumer := .returned (some x)
      history := s.history ++ [.take (some x)] }, c, [], a,
    by simp only [step, hc, hf, Option.map_some], ?_, by simp, fun _ => ?_⟩
  · constructor
    case replay =>
      have hr := Queue.replay_concat h.replay (.take (some x))
      simpa [Event.apply] using hr
    case nodup => simpa using hnd
    case incoming => exact h.incoming.update hxc _
    case consumer =>
      refine ⟨rfl, ha.update hxa _, ?_⟩
      intro y hy
      cases hy
      exact Function.update_self ..
    case producer => exact fun k => hp k (by simp [hown])
    case batch_nodup => exact h.batch_nodup
    case of_queue =>
      intro y
      have := h.of_queue y
      simp only [State.give, State.setNext, List.mem_cons] at this ⊢
      grind
    case of_producer =>
      intro k y
      have := h.of_producer k y
      simp only [State.give, State.setNext, List.mem_singleton]
      grind
    case of_consumer =>
      intro y
      have := h.of_consumer y
      simp only [State.give, State.setNext, List.mem_singleton]
      grind
  · simp only [work, hc, List.length_cons]
    omega

theorem Layout.done (h : Layout s c b a) (hc : s.consumer = .returned op) :
    Advances s c b a .done := by
  have hh := h.consumer
  rw [hc] at hh
  obtain ⟨rfl, ha, -⟩ := hh
  refine ⟨{ s.give op.toList .caller with consumer := .idle, results := s.results ++ [op] }, c, [],
    a, by simp only [step, hc], ?_, rfl, fun _ => ?_⟩
  · have hown := h.of_consumer
    have hop : ∀ x, x ∈ op.toList ↔ s.owner x = .consumer := by
      intro x
      rw [hown, hc, Option.mem_toList]
      simp
    refine { h with consumer := ⟨rfl, ha⟩, of_queue := ?_, of_producer := ?_, of_consumer := ?_ }
    · intro x
      have := h.of_queue x
      simp only [State.give, hop]
      grind
    · intro k x
      have := h.of_producer k x
      simp only [State.give, hop]
      grind
    · intro x
      simp only [State.give, hop]
      grind
  · simp [work, hc]

/-- The consumer always has a next step. -/
theorem Layout.advances (h : Layout s c b a) :
    ∃ act, act.consumes = true ∧ Advances s c b a act := by
  cases hc : s.consumer with
  | idle => exact ⟨.dequeue, rfl, h.dequeue hc⟩
  | exchange => exact ⟨.exchange, rfl, h.exchange hc⟩
  | reverse reversed node => exact ⟨.reverseIncoming, rfl, h.reverseIncoming hc⟩
  | pop => exact ⟨.pop, rfl, h.pop hc⟩
  | returned op => exact ⟨.done, rfl, h.done hc⟩

theorem Advances.layout (h : Advances s c b a act) (hs : step s act = some t) :
    ∃ c b a, Layout t c b a := by
  obtain ⟨t', c', b', a', ht, hl, -⟩ := h
  obtain rfl := Option.some.inj (hs.symm.trans ht)
  exact ⟨c', b', a', hl⟩

theorem Layout.consume (h : Layout s c b a) (hs : step s act = some t)
    (ha : act.consumes = true) : ∃ c b a, Layout t c b a := by
  cases act with
  | dequeue =>
    have hc : s.consumer = .idle := by
      simp only [step] at hs
      split at hs <;> simp_all
    exact (h.dequeue hc).layout hs
  | exchange =>
    have hc : s.consumer = .exchange := by
      simp only [step] at hs
      split at hs <;> simp_all
    exact (h.exchange hc).layout hs
  | reverseIncoming =>
    simp only [step] at hs
    split at hs
    case h_1 hc => exact (h.reverseIncoming hc).layout (by simp only [step, hc]; exact hs)
    case h_2 => cases hs
  | pop =>
    have hc : s.consumer = .pop := by
      simp only [step] at hs
      split at hs <;> simp_all
    exact (h.pop hc).layout hs
  | done =>
    simp only [step] at hs
    split at hs
    case h_1 hc => exact (h.done hc).layout (by simp only [step, hc]; exact hs)
    case h_2 => cases hs
  | _ => cases ha

theorem reachable_layout (hs : (system ι κ).Reachable s) : ∃ c b a, Layout s c b a := by
  induction hs with
  | init => exact ⟨[], [], [], .init⟩
  | @step s act t hr hs ih =>
    obtain ⟨c, b, a, h⟩ := ih
    cases hact : act.consumes with
    | true => exact h.consume hs hact
    | false =>
      obtain ⟨c, h⟩ := h.produce hs hact
      exact ⟨c, b, a, h⟩

end Coio.OpQueue
