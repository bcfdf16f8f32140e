import Coio.Semaphore.Callers

namespace Coio.Fifo
open Transition
open Function (update)
set_option autoImplicit true

/-- A push acquires `full_sema_` and releases `empty_sema_`, a pop does the opposite. -/
inductive Kind
  | push
  | pop
  deriving DecidableEq, Repr

def Kind.other : Kind → Kind
  | .push => .pop
  | .pop => .push

inductive Job (α : Type u)
  | push (value : α)
  | pop
  deriving DecidableEq, Repr

def Job.kind : Job α → Kind
  | .push _ => .push
  | .pop => .pop

/-- An asynchronous operation at its address, or a thread in `try_emplace()` or `try_pop()`. -/
inductive Party (ι : Type u) (κ : Type v)
  | op (d : Kind) (i : ι)
  | thread (k : κ)
  deriving DecidableEq, Repr

/-- The next step of an operation. From `unlock` on it holds the element that it has pushed or
popped. -/
inductive Pc (α : Type u)
  | idle
  | acquire (job : Job α)
  | lock (job : Job α)
  | update (job : Job α)
  | unlock (d : Kind) (value : α)
  | release (d : Kind) (value : α)
  | releasing (d : Kind) (value : α)
  deriving DecidableEq, Repr

/-- A fifo; `sema .push` is `full_sema_` and `sema .pop` is `empty_sema_`. The fields from `moved`
on record what has happened: the elements pushed and popped in the order of the lock, and at each
party the starts, the elements of its operations that succeeded and the number of those that failed
or were cancelled. -/
structure State (α : Type u) (ι : Type v) (κ : Type w) where
  underlying : List α
  sema : Kind → AsyncSemaphore.State ι (Party ι κ)
  mtx : Option (Party ι κ) := none
  closed : Bool := false
  pc : Party ι κ → Pc α := fun _ => .idle
  underflow : Bool := false
  moved : Kind → List (Party ι κ × α) := fun _ => []
  starts : Party ι κ → Nat := fun _ => 0
  results : Kind → Party ι κ → List α := fun _ _ => []
  fails : Party ι κ → Nat := fun _ => 0

inductive Act (α : Type u) (ι : Type v) (κ : Type w)
  | close
  | sema (d : Kind) (a : AsyncSemaphore.Act ι (Party ι κ))
  | start (i : ι) (job : Job α) (stop : Bool)
  | refuse (i : ι) (job : Job α)
  | acquired (d : Kind) (i : ι)
  | stopped (d : Kind) (i : ι) (callback : Bool)
  | tryStart (k : κ) (job : Job α)
  | tryResult (d : Kind) (k : κ) (acquired : Bool)
  | lock (p : Party ι κ)
  | update (p : Party ι κ)
  | unlock (p : Party ι κ)
  | release (p : Party ι κ)
  | released (p : Party ι κ)
  | handOver (p : Party ι κ) (i : ι)

/-- The permit has come and the operation goes on with the lock. -/
def Pc.granted : Pc α → Pc α
  | .acquire job => .lock job
  | pc => pc

variable [DecidableEq ι] [DecidableEq κ]

def State.semaStep (limit : Nat) (s : State α ι κ) (d : Kind)
    (a : AsyncSemaphore.Act ι (Party ι κ)) : Option (State α ι κ) :=
  (AsyncSemaphore.step limit (s.sema d) a).map fun t => { s with sema := update s.sema d t }

/-- The operation goes to `pc`. -/
def State.goto (s : State α ι κ) (p : Party ι κ) (pc : Pc α) : State α ι κ :=
  { s with pc := update s.pc p pc }

def State.begin (s : State α ι κ) (p : Party ι κ) (job : Job α) : State α ι κ :=
  { s.goto p (.acquire job) with starts := update s.starts p (s.starts p + 1) }

def State.fail (s : State α ι κ) (p : Party ι κ) : State α ι κ :=
  { s.goto p .idle with fails := update s.fails p (s.fails p + 1) }

def State.succeed (s : State α ι κ) (p : Party ι κ) (d : Kind) (value : α) : State α ι κ :=
  { s.goto p .idle with
    results := update s.results d (update (s.results d) p (s.results d p ++ [value])) }

/-- `underlying_.emplace(..)`, or `underlying_.front()` and `underlying_.pop()`, which need an
element. -/
def State.move (s : State α ι κ) (p : Party ι κ) : Job α → State α ι κ
  | .push value => { s.goto p (.unlock .push value) with
      underlying := s.underlying ++ [value]
      moved := update s.moved .push (s.moved .push ++ [(p, value)]) }
  | .pop => match s.underlying with
    | [] => { s with underflow := true }
    | value :: rest => { s.goto p (.unlock .pop value) with
        underlying := rest, moved := update s.moved .pop (s.moved .pop ++ [(p, value)]) }

/-- The steps of the fifo. A step of a semaphore that begins or ends an operation or a call moves
the party as well; the other ones, stop requests among them, are steps of the fifo as they are. -/
def step (limit : Nat) (s : State α ι κ) : Act α ι κ → Option (State α ι κ)
  | .close => (s.semaStep limit .push (.stop fun _ => true)).bind fun s =>
      (s.semaStep limit .pop (.stop fun _ => true)).map fun s => { s with closed := true }
  | .sema d a => if a.internal then s.semaStep limit d a else none
  | .start i job stop => match s.pc (.op job.kind i) with
    | .idle => (s.semaStep limit job.kind (.start i (.start true (s.closed || stop)))).map
        fun s => s.begin (.op job.kind i) job
    | _ => none
  -- the scope takes no new work any more
  | .refuse i job => match s.pc (.op job.kind i) with
    | .idle => some ((s.begin (.op job.kind i) job).fail (.op job.kind i))
    | _ => none
  | .acquired d i => (s.semaStep limit d (.start i (.complete .value))).map
      fun s => s.goto (.op d i) (s.pc (.op d i)).granted
  | .stopped d i callback =>
      (s.semaStep limit d (if callback then .callback i .setStopped
        else .start i (.complete .stopped))).map fun s => s.fail (.op d i)
  | .tryStart k job => match s.pc (.thread k) with
    | .idle => (s.semaStep limit job.kind (.thread (.thread k) .tryAcquire)).map
        fun s => s.begin (.thread k) job
    | _ => none
  | .tryResult d k acquired =>
      (s.semaStep limit d (.thread (.thread k) (.takeResult acquired))).map fun s =>
        if acquired then s.goto (.thread k) (s.pc (.thread k)).granted else s.fail (.thread k)
  | .lock p => match s.pc p with
    | .lock job => if s.mtx = none then some { s.goto p (.update job) with mtx := some p } else none
    | _ => none
  | .update p => match s.pc p with
    | .update job => some (s.move p job)
    | _ => none
  | .unlock p => match s.pc p with
    | .unlock d value => some { s.goto p (.release d value) with mtx := none }
    | _ => none
  | .release p => match s.pc p with
    | .release d value => (s.semaStep limit d.other (.thread p .release)).map
        fun s => s.goto p (.releasing d value)
    | _ => none
  | .released p => match s.pc p with
    | .releasing d value => (s.semaStep limit d.other (.thread p (.unlock none))).map
        fun s => s.succeed p d value
    | _ => none
  -- `release()` completes the operation that waited for the permit
  | .handOver p i => match s.pc p with
    | .releasing d value => (s.semaStep limit d.other (.thread p (.setValue i))).map fun s =>
        let s := s.succeed p d value
        s.goto (.op d.other i) (s.pc (.op d.other i)).granted
    | _ => none

/-- A fifo that starts with the elements `initial`: `full_sema_` starts with `max_size()` permits
and `empty_sema_` with one for each element. -/
def system (α : Type u) (ι : Type v) (κ : Type w) [DecidableEq ι] [DecidableEq κ]
    (limit maxSize : Nat) (initial : List α) : System (State α ι κ) (Act α ι κ) where
  init := {
    underlying := initial
    sema := fun
      | .push => { counter := maxSize }
      | .pop => { counter := initial.length } }
  step := step limit

end Coio.Fifo
