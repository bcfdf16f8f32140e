import Coio.Lib.Transition

namespace Coio.ObjectPool
open Transition
open Function (update)
set_option autoImplicit true

/-- The next step of a thread in `acquire()` or in `release()`. -/
inductive Pc (ν : Type u)
  | idle
  | lockAcquire
  | test
  | take
  | unlockTaken (entry : ν)
  | unlockEmpty
  | newObject
  | returned (entry : ν)
  | lockRelease (obj : ν)
  | exchange (obj : ν)
  | store (obj : ν) (old : Option ν)
  | unlockReleased
  deriving DecidableEq, Repr

/-- A pool with the objects at the addresses `ν` and the threads `κ`. `next` is what `NextAccessor`
reads and writes; `live` lists the objects that `new_object` has made, and `handed` counts how often
the callers have an object. -/
structure State (ν : Type u) (κ : Type v) where
  lock_ : Option κ := none
  free_list_ : Option ν := none
  next : ν → Option ν := fun _ => none
  pc : κ → Pc ν := fun _ => .idle
  live : List ν := []
  handed : ν → Nat := fun _ => 0

inductive Act (ν : Type u) (κ : Type v)
  | acquire (k : κ)
  | release (k : κ) (obj : ν)
  | write (obj : ν) (link : Option ν)
  | lock (k : κ)
  | test (k : κ)
  | take (k : κ)
  | unlock (k : κ)
  | newObject (k : κ) (entry : ν) (link : Option ν)
  | badAlloc (k : κ)
  | takeResult (k : κ)
  | exchange (k : κ)
  | store (k : κ)
  deriving DecidableEq, Repr

/-- What a thread does once it has the lock. -/
def Pc.locked : Pc ν → Option (Pc ν)
  | .lockAcquire => some .test
  | .lockRelease obj => some (.exchange obj)
  | _ => none

/-- What a thread does once it has given up the lock. -/
def Pc.unlocked : Pc ν → Option (Pc ν)
  | .unlockTaken entry => some (.returned entry)
  | .unlockEmpty => some .newObject
  | .unlockReleased => some .idle
  | _ => none

variable [DecidableEq ν] [DecidableEq κ]

def step (s : State ν κ) : Act ν κ → Option (State ν κ)
  | .acquire k => if s.pc k = .idle then some { s with pc := update s.pc k .lockAcquire } else none
  -- only an object that the caller has is released
  | .release k obj => if s.pc k = .idle ∧ 0 < s.handed obj then
      some { s with
        pc := update s.pc k (.lockRelease obj), handed := update s.handed obj (s.handed obj - 1) }
    else none
  -- the callers use the objects that they have, with their links
  | .write obj link => if 0 < s.handed obj then
      some { s with next := update s.next obj link }
    else none
  | .lock k => match (s.pc k).locked with
    | some pc => if s.lock_ = none then
        some { s with lock_ := some k, pc := update s.pc k pc }
      else none
    | none => none
  | .test k => if s.pc k = .test then
      some { s with
        pc := update s.pc k (if s.free_list_ = none then .unlockEmpty else .take) }
    else none
  | .take k => if s.pc k = .take then
      match s.free_list_ with
      | some entry => some { s with
          free_list_ := s.next entry, pc := update s.pc k (.unlockTaken entry) }
      | none => none
    else none
  | .unlock k => match (s.pc k).unlocked with
    | some pc => some { s with lock_ := none, pc := update s.pc k pc }
    | none => none
  -- memory that is in use is not allocated
  | .newObject k entry link => if s.pc k = .newObject ∧ entry ∉ s.live then
      some { s with
        next := update s.next entry link, live := entry :: s.live
        pc := update s.pc k (.returned entry) }
    else none
  | .badAlloc k => if s.pc k = .newObject then some { s with pc := update s.pc k .idle } else none
  | .takeResult k => match s.pc k with
    | .returned entry => some { s with
        pc := update s.pc k .idle, handed := update s.handed entry (s.handed entry + 1) }
    | _ => none
  | .exchange k => match s.pc k with
    | .exchange obj => some { s with
        free_list_ := some obj, pc := update s.pc k (.store obj s.free_list_) }
    | _ => none
  | .store k => match s.pc k with
    | .store obj old => some { s with
        next := update s.next obj old, pc := update s.pc k .unlockReleased }
    | _ => none

def system (ν : Type u) (κ : Type v) [DecidableEq ν] [DecidableEq κ] :
    System (State ν κ) (Act ν κ) where
  init := {}
  step := step

/-- The destructor, with the objects that it deletes. It has no result if it uses one that is not
there any more, or if `fuel` turns of the loop are not enough. -/
def destroy (next : ν → Option ν) : Nat → List ν → Option ν → Option (List ν)
  | _, _, none => some []
  | 0, _, some _ => none
  | fuel + 1, live, some entry => if entry ∈ live then
      (destroy next fuel (live.erase entry) (next entry)).map (entry :: ·)
    else none

end Coio.ObjectPool
