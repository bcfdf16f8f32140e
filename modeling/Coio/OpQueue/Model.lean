import Coio.Lib.Linked
import Coio.Lib.Queue
import Coio.Lib.Transition

namespace Coio.OpQueue
open Function (update)
open Linked
open Queue (Event)
open Transition
set_option autoImplicit true

/-- Who may write the link of a node. -/
inductive Owner (κ : Type u)
  | caller
  | producer (k : κ)
  | queue
  | consumer
  deriving DecidableEq, Repr

/-- The next step of a producer: the loop of `reverse()` or `bulk_enqueue()`, then `publish()`. -/
inductive ProducerPc (ι : Type u)
  | idle
  | reverse (op : ι) (reversed : Option ι) (node : ι)
  | gather (head tail : Option ι) (ops : List ι)
  | load (head tail : ι)
  | link (head tail : ι) (old : Option ι)
  | cas (head tail : ι) (old : Option ι)
  deriving DecidableEq, Repr

/-- The next step of the consumer in `dequeue()`. -/
inductive ConsumerPc (ι : Type u)
  | idle
  | exchange
  | reverse (reversed : Option ι) (node : ι)
  | pop
  | returned (op : Option ι)
  deriving DecidableEq, Repr

/-- A queue of the nodes `ι` with the producers `κ`. The fields from `owner` on record what has
happened: who may write each node, the nodes of each producer's call in the caller's order until
they are published, the non-empty calls of each producer, the results of `dequeue()` and the
operations in the order of their effects. -/
structure State (ι : Type u) (κ : Type v) where
  next : ι → Option ι := fun _ => none
  incoming : Option ι := none
  front : Option ι := none
  producer : κ → ProducerPc ι := fun _ => .idle
  consumer : ConsumerPc ι := .idle
  owner : ι → Owner κ := fun _ => .caller
  batch : κ → List ι := fun _ => []
  calls : κ → List (List ι) := fun _ => []
  results : List (Option ι) := []
  history : List (Event κ ι) := []

inductive Act (ι : Type u) (κ : Type v)
  | setNext (x : ι) (next : Option ι)
  | enqueue (k : κ) (op : ι) (chain : List ι)
  | bulkEnqueue (k : κ) (ops : List ι)
  | reverse (k : κ)
  | gather (k : κ)
  | load (k : κ) (old : Option ι)
  | link (k : κ)
  | cas (k : κ)
  | casFail (k : κ) (old : Option ι)
  | dequeue
  | exchange
  | reverseIncoming
  | pop
  | done
  deriving DecidableEq, Repr

/-- The steps of `dequeue()`. -/
def Act.consumes : Act ι κ → Bool
  | .dequeue | .exchange | .reverseIncoming | .pop | .done => true
  | _ => false

variable [DecidableEq ι] [DecidableEq κ]

def State.goto (s : State ι κ) (k : κ) (pc : ProducerPc ι) : State ι κ :=
  { s with producer := update s.producer k pc }

def State.setNext (s : State ι κ) (x : ι) (v : Option ι) : State ι κ :=
  { s with next := update s.next x v }

/-- The nodes go from one owner to the next. -/
def State.give (s : State ι κ) (l : List ι) (owner : Owner κ) : State ι κ :=
  { s with owner := fun x => if x ∈ l then owner else s.owner x }

/-- A producer gets the nodes of its call, which nobody else may use until they are dequeued. -/
def State.accept (s : State ι κ) (k : κ) (l : List ι) : State ι κ :=
  { s.give l (.producer k) with
    batch := update s.batch k l
    calls := if l = [] then s.calls else update s.calls k (s.calls k ++ [l]) }

/-- The caller owns distinct nodes. -/
def State.Owned (s : State ι κ) (l : List ι) : Prop := l.Nodup ∧ ∀ x ∈ l, s.owner x = .caller

instance (s : State ι κ) (l : List ι) : Decidable (s.Owned l) := instDecidableAnd

def step (s : State ι κ) : Act ι κ → Option (State ι κ)
  -- a caller links its own nodes, to build a chain
  | .setNext x next => if s.owner x = .caller then some (s.setNext x next) else none
  | .enqueue k op chain => match s.producer k with
    | .idle => if s.Owned chain ∧ Chain s.next chain (some op) then
        some ((s.accept k chain).goto k (.reverse op none op))
      else none
    | _ => none
  -- the assertion that the links are null only stops the program, nothing depends on it
  | .bulkEnqueue k ops => match s.producer k with
    | .idle => if s.Owned ops then some ((s.accept k ops).goto k (.gather none none ops)) else none
    | _ => none
  | .reverse k => match s.producer k with
    | .reverse op reversed node => some <| (s.setNext node reversed).goto k <|
        match s.next node with
        | none => .load node op
        | some next => .reverse op (some node) next
    | _ => none
  | .gather k => match s.producer k with
    | .gather head tail (op :: ops) => some <| (s.setNext op head).goto k <|
        .gather (some op) (if tail = none then some op else tail) ops
    | .gather none _ [] => some (s.goto k .idle)
    | .gather (some head) tail [] => tail.map fun tail => s.goto k (.load head tail)
    | _ => none
  -- a relaxed load may return any value of the past
  | .load k old => match s.producer k with
    | .load head tail => some (s.goto k (.link head tail old))
    | _ => none
  | .link k => match s.producer k with
    | .link head tail old => some ((s.setNext tail old).goto k (.cas head tail old))
    | _ => none
  | .cas k => match s.producer k with
    | .cas head _ old => if s.incoming = old then
        some { (s.give (s.batch k) .queue).goto k .idle with
          incoming := some head
          batch := update s.batch k []
          history := s.history ++ [.put k (s.batch k)] }
      else none
    | _ => none
  -- a weak compare-exchange may fail at any time
  | .casFail k old => match s.producer k with
    | .cas head tail _ => some (s.goto k (.link head tail old))
    | _ => none
  | .dequeue => match s.consumer with
    | .idle => some { s with consumer := if s.front = none then .exchange else .pop }
    | _ => none
  | .exchange => match s.consumer with
    | .exchange => match s.incoming with
      | none => some { s with consumer := .returned none, history := s.history ++ [.take none] }
      | some incoming => some { s with incoming := none, consumer := .reverse none incoming }
    | _ => none
  | .reverseIncoming => match s.consumer with
    | .reverse reversed node => match s.next node with
      | none => some { s.setNext node reversed with front := some node, consumer := .pop }
      | some next => some { s.setNext node reversed with consumer := .reverse (some node) next }
    | _ => none
  | .pop => match s.consumer with
    | .pop => s.front.map fun op => { (s.setNext op none).give [op] .consumer with
        front := s.next op
        consumer := .returned (some op)
        history := s.history ++ [.take (some op)] }
    | _ => none
  | .done => match s.consumer with
    | .returned op => some { s.give op.toList .caller with
        consumer := .idle, results := s.results ++ [op] }
    | _ => none

def system (ι : Type u) (κ : Type v) [DecidableEq ι] [DecidableEq κ] :
    System (State ι κ) (Act ι κ) where
  init := {}
  step := step

end Coio.OpQueue
