import Coio.OpQueue.Model

namespace Coio.OpQueue
open Function (update)
open Linked
open Queue (Event)
set_option autoImplicit true

/-- A producer's nodes `l` at its next step. The loops link the nodes the other way round; until the
link of the last one is written, `publish()` has a path to it. -/
def Prepares (next : ι → Option ι) (l : List ι) : ProducerPc ι → Prop
  | .idle => l = []
  | .reverse op reversed node => ∃ a b, l = a.reverse ++ b ∧ l.head? = some op ∧
      Chain next a reversed ∧ Chain next b (some node)
  | .gather head tail ops => ∃ a, l = a.reverse ++ ops ∧ Chain next a head ∧ tail = a.getLast?
  | .load head tail | .link head tail _ => ∃ a, l = (a ++ [tail]).reverse ∧
      Path next a (some head) (some tail)
  | .cas head tail old => (∃ a, l = (a ++ [tail]).reverse ∧ Path next a (some head) (some tail)) ∧
      next tail = old

/-- The consumer's nodes at its next step: `a` in order, after the nodes `b` that are still the
other way round. -/
def Holds (next : ι → Option ι) (front : Option ι) (b a : List ι) : ConsumerPc ι → Prop
  | .idle => b = [] ∧ Chain next a front
  | .exchange => b = [] ∧ a = [] ∧ front = none
  | .reverse reversed node => front = none ∧ Chain next a reversed ∧ Chain next b (some node)
  | .pop => b = [] ∧ a ≠ [] ∧ Chain next a front
  | .returned op => b = [] ∧ Chain next a front ∧ ∀ x, op = some x → next x = none

theorem Prepares.frame (h : Prepares next l pc) (hn : ∀ x ∈ l, next' x = next x) :
    Prepares next' l pc := by
  have hpath : ∀ {head tail},
      (∃ a, l = (a ++ [tail]).reverse ∧ Path next a (some head) (some tail)) →
      ∃ a, l = (a ++ [tail]).reverse ∧ Path next' a (some head) (some tail) := by
    rintro head tail ⟨a, rfl, ha⟩
    exact ⟨a, rfl, ha.frame fun x hx => hn x (by simp [hx])⟩
  cases pc with
  | idle => exact h
  | reverse op reversed node =>
    obtain ⟨a, b, rfl, hop, ha, hb⟩ := h
    exact ⟨a, b, rfl, hop, ha.frame fun x hx => hn x (by simp [hx]),
      hb.frame fun x hx => hn x (by simp [hx])⟩
  | gather head tail ops =>
    obtain ⟨a, rfl, ha, htail⟩ := h
    exact ⟨a, rfl, ha.frame fun x hx => hn x (by simp [hx]), htail⟩
  | load head tail => exact hpath h
  | link head tail old => exact hpath h
  | cas head tail old =>
    obtain ⟨ha, hold⟩ := h
    refine ⟨hpath ha, ?_⟩
    obtain ⟨a, rfl, -⟩ := ha
    rw [hn tail (by simp), hold]

theorem Holds.frame (h : Holds next front b a pc) (hb : ∀ x ∈ b, next' x = next x)
    (ha : ∀ x ∈ a, next' x = next x) (hr : ∀ x, pc = .returned (some x) → next' x = next x) :
    Holds next' front b a pc := by
  cases pc with
  | idle => exact ⟨h.1, h.2.frame ha⟩
  | exchange => exact h
  | reverse reversed node => exact ⟨h.1, h.2.1.frame ha, h.2.2.frame hb⟩
  | pop => exact ⟨h.1, h.2.1, h.2.2.frame ha⟩
  | returned op =>
    refine ⟨h.1, h.2.1.frame ha, ?_⟩
    rintro x rfl
    rw [hr x rfl]
    exact h.2.2 x rfl

/-- One producer goes on and the other ones stay where they are. -/
theorem prepares_update [DecidableEq κ] {batch : κ → List ι} {pcs : κ → ProducerPc ι}
    (hk : Prepares next (batch k) pc) (hj : ∀ j, j ≠ k → Prepares next (batch j) (pcs j)) (j : κ) :
    Prepares next (batch j) (update pcs k pc j) := by
  by_cases he : j = k
  · rwa [he, Function.update_self]
  · rw [Function.update_of_ne he]
    exact hj j he

variable [DecidableEq ι] {s : State ι κ} {c b a : List ι} {x : ι} {k : κ}

/-- The nodes in the queue are those of `incoming_`, where the last one is on top, behind those of
the consumer. -/
structure Layout (s : State ι κ) (c b a : List ι) : Prop where
  replay : Queue.replay [] s.history = some (b.reverse ++ a ++ c.reverse)
  nodup : (b.reverse ++ a ++ c.reverse).Nodup
  incoming : Chain s.next c s.incoming
  consumer : Holds s.next s.front b a s.consumer
  producer : ∀ k, Prepares s.next (s.batch k) (s.producer k)
  batch_nodup : ∀ k, (s.batch k).Nodup
  of_queue : ∀ x, s.owner x = .queue ↔ x ∈ b ∨ x ∈ a ∨ x ∈ c
  of_producer : ∀ k x, s.owner x = .producer k ↔ x ∈ s.batch k
  of_consumer : ∀ x, s.owner x = .consumer ↔ s.consumer = .returned (some x)

theorem Layout.init : Layout ({} : State ι κ) [] [] [] where
  replay := rfl
  nodup := List.nodup_nil
  incoming := rfl
  consumer := ⟨rfl, rfl⟩
  producer _ := rfl
  batch_nodup _ := List.nodup_nil
  of_queue := by simp
  of_producer := by simp
  of_consumer := by simp

/-- A node's owner tells whose link changes. -/
theorem Layout.frame (h : Layout s c b a) (v : Option ι) :
    (s.owner x ≠ .queue → Chain (update s.next x v) c s.incoming) ∧
    (s.owner x ≠ .queue → s.owner x ≠ .consumer →
      Holds (update s.next x v) s.front b a s.consumer) ∧
    ∀ k, s.owner x ≠ .producer k → Prepares (update s.next x v) (s.batch k) (s.producer k) := by
  have hne : ∀ {y}, x ≠ y → update s.next x v y = s.next y := fun hy =>
    Function.update_of_ne hy.symm ..
  refine ⟨fun hx => ?_, fun hx hc => ?_, fun k hx => ?_⟩
  · refine h.incoming.frame fun y hy => hne ?_
    rintro rfl
    exact hx ((h.of_queue x).2 (.inr (.inr hy)))
  · refine h.consumer.frame (fun y hy => hne ?_) (fun y hy => hne ?_) (fun y hy => hne ?_)
    · rintro rfl
      exact hx ((h.of_queue x).2 (.inl hy))
    · rintro rfl
      exact hx ((h.of_queue x).2 (.inr (.inl hy)))
    · rintro rfl
      exact hc ((h.of_consumer x).2 hy)
  · refine (h.producer k).frame fun y hy => hne ?_
    rintro rfl
    exact hx ((h.of_producer k x).2 hy)

/-- Callers link their nodes as they like. -/
theorem Layout.setNext (h : Layout s c b a) (hx : s.owner x = .caller) (v : Option ι) :
    Layout (s.setNext x v) c b a := by
  obtain ⟨hc, hb, hp⟩ := h.frame v
  exact { h with
    incoming := hc (by simp [hx])
    consumer := hb (by simp [hx]) (by simp [hx])
    producer := fun k => hp k (by simp [hx]) }

variable [DecidableEq κ]

theorem Layout.goto (h : Layout s c b a) (hp : Prepares s.next (s.batch k) pc) :
    Layout (s.goto k pc) c b a :=
  { h with producer := prepares_update hp fun j _ => h.producer j }

/-- A producer links one of its own nodes. -/
theorem Layout.write (h : Layout s c b a) (hx : x ∈ s.batch k)
    (hp : Prepares (update s.next x v) (s.batch k) pc) :
    Layout ((s.setNext x v).goto k pc) c b a := by
  have hown := (h.of_producer k x).2 hx
  obtain ⟨hc, hb, hrest⟩ := h.frame v
  exact { h with
    incoming := hc (by simp [hown])
    consumer := hb (by simp [hown]) (by simp [hown])
    producer := prepares_update hp fun j hj => hrest j (by simpa [hown] using Ne.symm hj) }

/-- A call gets the caller's nodes. -/
theorem Layout.accept {l : List ι} (h : Layout s c b a) (hk : s.producer k = .idle)
    (hl : s.Owned l) (hp : Prepares s.next l pc) : Layout ((s.accept k l).goto k pc) c b a := by
  have hempty : s.batch k = [] := by
    have := h.producer k
    rwa [hk] at this
  have howner : ∀ x,
      ((s.accept k l).goto k pc).owner x = if x ∈ l then .producer k else s.owner x :=
    fun _ => rfl
  refine { h with producer := ?_, batch_nodup := ?_, of_queue := ?_, of_producer := ?_,
                  of_consumer := ?_ }
  · refine prepares_update ?_ fun j hj => ?_
    · simpa [State.goto, State.accept, State.give] using hp
    · simpa [State.goto, State.accept, State.give, hj] using h.producer j
  · intro j
    by_cases hj : j = k
    · subst hj
      simpa [State.goto, State.accept] using hl.1
    · simpa [State.goto, State.accept, hj] using h.batch_nodup j
  · intro x
    have := h.of_queue x
    have := hl.2 x
    rw [howner]
    grind
  · intro j x
    have := h.of_producer j x
    have := hl.2 x
    rw [howner]
    by_cases hj : j = k
    · subst hj
      simp [State.goto, State.accept]
      grind
    · simp [State.goto, State.accept, hj]
      grind
  · intro x
    have := h.of_consumer x
    have := hl.2 x
    rw [howner]
    simp only [State.goto, State.accept, State.give]
    grind

/-- The nodes of the call go on top of `incoming_`, where their order is the reverse. -/
theorem Layout.publish {head tail : ι} {old : Option ι} (h : Layout s c b a)
    (hk : s.producer k = .cas head tail old) (ho : s.incoming = old) :
    Layout { (s.give (s.batch k) .queue).goto k .idle with
      incoming := some head
      batch := update s.batch k []
      history := s.history ++ [.put k (s.batch k)] } ((s.batch k).reverse ++ c) b a := by
  have hp := h.producer k
  rw [hk] at hp
  obtain ⟨⟨w, hw, hpath⟩, hnext⟩ := hp
  have hmem := h.of_producer k
  have hnd := h.batch_nodup k
  constructor
  case replay =>
    rw [Queue.replay_concat h.replay, Event.apply]
    simp
  case nodup =>
    have hq := h.nodup
    have hdis : ∀ x ∈ s.batch k, x ∉ b ∧ x ∉ a ∧ x ∉ c := by
      intro x hx
      have := h.of_queue x
      have := (hmem x).2 hx
      grind
    rw [List.reverse_append, List.reverse_reverse, ← List.append_assoc]
    refine List.nodup_append.2 ⟨hq, hnd, ?_⟩
    rintro x hx y hy rfl
    have := hdis x hy
    simp at hx
    grind
  case incoming =>
    rw [hw, List.reverse_reverse, List.append_assoc]
    refine hpath.chain ⟨rfl, ?_⟩
    have hc := h.incoming
    rw [ho, ← hnext] at hc
    exact hc
  case consumer => exact h.consumer
  case producer =>
    refine prepares_update ?_ fun j hj => ?_
    · simp [Prepares]
    · simpa [State.goto, State.give, hj] using h.producer j
  case batch_nodup =>
    intro j
    by_cases hj : j = k
    · subst hj
      simp
    · simpa [hj] using h.batch_nodup j
  case of_queue =>
    intro x
    have := h.of_queue x
    simp only [State.goto, State.give, List.mem_append, List.mem_reverse]
    grind
  case of_producer =>
    intro j x
    have := h.of_producer j x
    have := hmem x
    simp only [State.goto, State.give]
    by_cases hj : j = k
    · subst hj
      simp
      grind
    · simp [hj]
      grind
  case of_consumer =>
    intro x
    have := h.of_consumer x
    have := hmem x
    simp only [State.goto, State.give]
    grind

end Coio.OpQueue
