import Mathlib.Data.List.ReduceOption

namespace Queue
set_option autoImplicit true

/-- An operation on a sequential queue: the party `k` puts a batch at the end, or the first element
is taken, or nothing as the queue is empty. -/
inductive Event (κ : Type u) (α : Type v)
  | put (k : κ) (batch : List α)
  | take (result : Option α)
  deriving DecidableEq, Repr

def Event.apply [DecidableEq α] : Event κ α → List α → Option (List α)
  | .put _ batch, q => some (q ++ batch)
  | .take none, q => if q = [] then some [] else none
  | .take (some x), q => if q.head? = some x then some q.tail else none

/-- The contents after a sequence of operations, if each of them is possible in its turn. -/
def replay [DecidableEq α] (q : List α) : List (Event κ α) → Option (List α)
  | [] => some q
  | e :: h => (e.apply q).bind fun q => replay q h

/-- What has been put, in its order. -/
def puts (h : List (Event κ α)) : List α :=
  h.flatMap fun
    | .put _ batch => batch
    | .take _ => []

/-- The batches of one party. -/
def putsOf [DecidableEq κ] (k : κ) (h : List (Event κ α)) : List (List α) :=
  h.flatMap fun
    | .put j batch => if j = k then [batch] else []
    | .take _ => []

/-- The results of taking, in their order. -/
def takes (h : List (Event κ α)) : List (Option α) :=
  h.flatMap fun
    | .put _ _ => []
    | .take result => [result]

@[simp] theorem puts_put (h : List (Event κ α)) (k : κ) (batch : List α) :
    puts (h ++ [.put k batch]) = puts h ++ batch := by simp [puts]

@[simp] theorem puts_take (h : List (Event κ α)) (r : Option α) :
    puts (h ++ [.take r]) = puts h := by simp [puts]

@[simp] theorem takes_put (h : List (Event κ α)) (k : κ) (batch : List α) :
    takes (h ++ [.put k batch]) = takes h := by simp [takes]

@[simp] theorem takes_take (h : List (Event κ α)) (r : Option α) :
    takes (h ++ [.take r]) = takes h ++ [r] := by simp [takes]

@[simp] theorem putsOf_put [DecidableEq κ] (h : List (Event κ α)) (j k : κ) (batch : List α) :
    putsOf k (h ++ [.put j batch]) = putsOf k h ++ if j = k then [batch] else [] := by
  simp [putsOf]

@[simp] theorem putsOf_take [DecidableEq κ] (h : List (Event κ α)) (k : κ) (r : Option α) :
    putsOf k (h ++ [.take r]) = putsOf k h := by simp [putsOf]

variable [DecidableEq α]

theorem replay_append (q : List α) (h h' : List (Event κ α)) :
    replay q (h ++ h') = (replay q h).bind fun q => replay q h' := by
  induction h generalizing q with
  | nil => rfl
  | cons e h ih =>
    rw [List.cons_append, replay, replay, Option.bind_assoc]
    congr
    exact funext ih

theorem replay_concat {q r : List α} {h : List (Event κ α)} (hr : replay q h = some r)
    (e : Event κ α) : replay q (h ++ [e]) = e.apply r := by
  rw [replay_append, hr, Option.bind_some, replay]
  exact Option.bind_fun_some _

theorem apply_fifo {q r : List α} {e : Event κ α} (he : e.apply q = some r) :
    q ++ puts [e] = (takes [e]).reduceOption ++ r := by
  cases e with
  | put k batch =>
    cases he
    simp [puts, takes]
  | take result =>
    cases result with
    | none =>
      obtain ⟨rfl, he⟩ := Option.ite_none_right_eq_some.1 he
      cases he
      rfl
    | some x =>
      obtain ⟨hx, he⟩ := Option.ite_none_right_eq_some.1 he
      cases he
      obtain ⟨q, rfl⟩ := List.head?_eq_some_iff.1 hx
      simp [puts, takes, List.reduceOption]

theorem replay_fifo {q r : List α} {h : List (Event κ α)} (hr : replay q h = some r) :
    q ++ puts h = (takes h).reduceOption ++ r := by
  induction h generalizing q with
  | nil =>
    cases hr
    simp [puts, takes, List.reduceOption]
  | cons e h ih =>
    obtain ⟨m, he, hr⟩ := Option.bind_eq_some_iff.1 hr
    have h₁ := apply_fifo he
    have h₂ := ih hr
    have hputs : puts (e :: h) = puts [e] ++ puts h := by simp [puts]
    have htakes : takes (e :: h) = takes [e] ++ takes h := by simp [takes]
    rw [hputs, htakes, List.reduceOption_append, ← List.append_assoc, h₁, List.append_assoc, h₂,
      List.append_assoc]

/-- Nothing is taken only from an empty queue. -/
theorem replay_take_none {q r : List α} {h h' : List (Event κ α)}
    (hr : replay q (h ++ .take none :: h') = some r) :
    q ++ puts h = (takes h).reduceOption := by
  rw [replay_append] at hr
  obtain ⟨m, hm, hr⟩ := Option.bind_eq_some_iff.1 hr
  obtain ⟨_, he, -⟩ := Option.bind_eq_some_iff.1 hr
  obtain ⟨rfl, -⟩ := Option.ite_none_right_eq_some.1 he
  rw [replay_fifo hm, List.append_nil]

end Queue
