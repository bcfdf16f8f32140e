import Coio.Generator.Model

namespace Coio.Generator
open Function (update)
open Machine
set_option autoImplicit true

/-- The values yielded depth-first up to the first exception that nobody catches, and that one. -/
def Body.flatten : Body α ε → List α × Option ε
  | .co_return => ([], none)
  | .co_yield value rest => (value :: rest.flatten.1, rest.flatten.2)
  | .elements_of nested catches rest =>
    if nested.flatten.2 = none ∨ catches then
      (nested.flatten.1 ++ rest.flatten.1, rest.flatten.2)
    else nested.flatten
  | .throw e => ([], some e)

theorem Body.flatten_to_generator_ (as : List α) :
    (to_generator_ as : Body α ε).flatten = (as, none) := by
  induction as with
  | nil => rfl
  | cons a as ih => rw [to_generator_, flatten, ih]

/-- The generators from `k`, the innermost, to the root: each is awaited by the next one, to which
its `prev_` points. -/
def Nested (nodes : Nat → Node α ε) : Nat → List Nat → Prop
  | k, [] => k = 0 ∧ (nodes k).prev_ = none
  | c, k :: ks => (nodes c).prev_ = some k ∧
      (∃ catches rest, (nodes k).frame = .awaiting c catches rest) ∧ Nested nodes k ks

/-- The generator `k` is active below `ks`, and each of them has it as its top. -/
structure Active (s : State α ε) (k : Nat) (ks : List Nat) : Prop where
  nested : Nested s.nodes k ks
  tops : ∀ j ∈ k :: ks, (s.nodes j).top_ = some k
  nodup : (k :: ks).Nodup
  fresh : ∀ j ∈ k :: ks, j < s.next

/-- While the consumer runs and the root is not done, the innermost active generator is suspended
at a `co_yield`, and it is the top of each one from it to the root. -/
def Linked (s : State α ε) : Prop :=
  s.control = .consumer → (s.nodes 0).frame = .done ∨
    ∃ k ks rest, (s.nodes k).frame = .suspended rest ∧ Nested s.nodes k ks ∧
      ∀ j ∈ k :: ks, (s.nodes j).top_ = some k

theorem Linked.of_ne {s : State α ε} (h : s.control ≠ .consumer) : Linked s :=
  fun hc => absurd hc h

/-- The links depend only on `prev_`, and on the frames of those that await. -/
theorem Nested.congr {nodes nodes' : Nat → Node α ε} (h : Nested nodes k ks)
    (hk : (nodes' k).prev_ = (nodes k).prev_)
    (hks : ∀ j ∈ ks, (nodes' j).prev_ = (nodes j).prev_ ∧ (nodes' j).frame = (nodes j).frame) :
    Nested nodes' k ks := by
  induction ks generalizing k with
  | nil => exact ⟨h.1, hk.trans h.2⟩
  | cons j js ih =>
    obtain ⟨hprev, hframe, hrest⟩ := h
    obtain ⟨hj, hjs⟩ := List.forall_mem_cons.1 hks
    refine ⟨hk.trans hprev, ?_, ih hrest hj.1 hjs⟩
    rw [hj.2]
    exact hframe

/-- The links end at the root, which awaits unless it is the innermost. -/
theorem Nested.root {nodes : Nat → Node α ε} (h : Nested nodes k ks) :
    0 ∈ k :: ks ∧ ((nodes k).frame ≠ .done → (nodes 0).frame ≠ .done) := by
  induction ks generalizing k with
  | nil =>
    rw [h.1]
    exact ⟨.head _, id⟩
  | cons j js ih =>
    obtain ⟨-, ⟨catches, rest, hframe⟩, hrest⟩ := h
    obtain ⟨hmem, hdone⟩ := ih hrest
    exact ⟨.tail _ hmem, fun _ => hdone (by rw [hframe]; exact nofun)⟩

/-- What the loop over `prev_` makes of the nodes. -/
def retop (nodes : Nat → Node α ε) (ks : List Nat) (top : Nat) (j : Nat) : Node α ε :=
  if j ∈ ks then { nodes j with top_ := some top } else nodes j

theorem retop_of_mem {nodes : Nat → Node α ε} (h : j ∈ ks) :
    retop nodes ks top j = { nodes j with top_ := some top } := if_pos h

theorem retop_of_notMem {nodes : Nat → Node α ε} (h : j ∉ ks) :
    retop nodes ks top j = nodes j := if_neg h

theorem retop_cons {nodes : Nat → Node α ε} (h : k ∉ ks) :
    retop (update nodes k { nodes k with top_ := some top }) ks top =
      retop nodes (k :: ks) top := by
  funext j
  by_cases hj : j = k
  · subst hj
    rw [retop_of_notMem h, retop_of_mem (.head _), Function.update_self]
  · by_cases hjs : j ∈ ks
    · rw [retop_of_mem hjs, retop_of_mem (.tail _ hjs), Function.update_of_ne hj]
    · rw [retop_of_notMem hjs, retop_of_notMem (by simp [hj, hjs]), Function.update_of_ne hj]

/-- The loop goes up to the root, and the coroutine `top` is resumed. -/
theorem set_top_runs {s : State α ε} (hn : Nested s.nodes k ks) (hd : (k :: ks).Nodup)
    (hs : s.control = .set_top (some k) top) :
    Runs step Linked s { s with nodes := retop s.nodes (k :: ks) top, control := .resume top } := by
  induction ks generalizing s k with
  | nil =>
    have hloop : step s =
        s.set k { s.nodes k with top_ := some top } (.set_top none top) := by
      rw [step, hs, ← hn.2]
      rfl
    have hleave : step (s.set k { s.nodes k with top_ := some top } (.set_top none top)) =
        { s with nodes := retop s.nodes [k] top, control := .resume top } := by
      rw [← retop_cons List.not_mem_nil]
      simp only [step, set_top, State.set]
      congr 1
    exact .step (.of_ne (by rw [hs]; exact nofun)) hloop
      (.step (.of_ne nofun) hleave (.refl (.of_ne nofun)))
  | cons j js ih =>
    obtain ⟨hprev, -, hrest⟩ := hn
    have hkj : k ∉ j :: js := (List.nodup_cons.1 hd).1
    have hloop : step s =
        s.set k { s.nodes k with top_ := some top } (.set_top (some j) top) := by
      rw [step, hs, ← hprev]
      rfl
    refine .step (.of_ne (by rw [hs]; exact nofun)) hloop ?_
    rw [← retop_cons hkj]
    refine ih (s := s.set k { s.nodes k with top_ := some top } (.set_top (some j) top)) ?_
      (List.nodup_cons.1 hd).2 rfl
    have hsame : ∀ i ∈ j :: js, (s.set k { s.nodes k with top_ := some top }
        (.set_top (some j) top)).nodes i = s.nodes i := fun i hi => s.set_of_ne fun he => by
      subst he
      exact hkj hi
    refine hrest.congr (congrArg Node.prev_ (hsame j (.head _))) fun i hi => ?_
    rw [hsame i (.tail _ hi)]
    exact ⟨rfl, rfl⟩

/-- A nested generator that is finished hands over to the one that awaits it. -/
theorem final_suspend_runs {s : State α ε} (ha : Active s c (k :: ks))
    (hs : s.control = .final_suspend c) : ∃ t, Runs step Linked s t ∧ t.control = .resume k ∧
      t.yielded = s.yielded ∧ t.next = s.next ∧ t.nodes c = { s.nodes c with frame := .done } ∧
      ∀ j ∈ k :: ks, t.nodes j = { s.nodes j with top_ := some k } := by
  obtain ⟨hprev, -, hrest⟩ := ha.nested
  have hc : c ∉ k :: ks := (List.nodup_cons.1 ha.nodup).1
  have hne : ∀ j ∈ k :: ks, j ≠ c := fun j hj he => by
    subst he
    exact hc hj
  have hfinal : step s = s.set c { s.nodes c with frame := .done } (.set_top (some k) k) := by
    simp only [step, hs, final_suspend, hprev]
  have hsame : ∀ j ∈ k :: ks, (s.set c { s.nodes c with frame := .done }
      (.set_top (some k) k)).nodes j = s.nodes j := fun j hj => s.set_of_ne (hne j hj)
  have hnested := hrest.congr (congrArg Node.prev_ (hsame k (.head _))) fun j hj => by
    rw [hsame j (.tail _ hj)]
    exact ⟨rfl, rfl⟩
  have hruns := set_top_runs hnested (List.nodup_cons.1 ha.nodup).2 (s := s.set c _ _) rfl
  refine ⟨_, .step (.of_ne (by rw [hs]; exact nofun)) hfinal hruns, rfl, rfl, rfl, ?_, ?_⟩
  · exact (retop_of_notMem hc).trans (s.set_self ..)
  · intro j hj
    exact (retop_of_mem hj).trans (by rw [hsame j hj])

/-- A nested generator is made, and becomes the top of all below it. -/
theorem elements_of_runs {s : State α ε} (ha : Active s k ks)
    (hs : s.control = .run k (.elements_of nested catches rest)) :
    ∃ t, Runs step Linked s t ∧ t.control = .run s.next nested ∧ t.yielded = s.yielded ∧
      Active t s.next (k :: ks) ∧ (t.nodes s.next).value_or_error_ = none ∧
      t.nodes k = { s.nodes k with frame := .awaiting s.next catches rest, top_ := some s.next } ∧
      ∀ j ∈ ks, t.nodes j = { s.nodes j with top_ := some s.next } := by
  have hnew : ∀ j ∈ k :: ks, j ≠ s.next := fun j hj => Nat.ne_of_lt (ha.fresh j hj)
  have hk : ∀ j ∈ ks, j ≠ k := fun j hj he => by
    subst he
    exact (List.nodup_cons.1 ha.nodup).1 hj
  have hmake : step s = elements_of s k nested catches rest := by
    rw [step, hs]
    rfl
  have hnode : (elements_of s k nested catches rest).nodes s.next =
      { frame := .suspended nested, prev_ := some k, top_ := some s.next } :=
    Function.update_self ..
  have hcaller : (elements_of s k nested catches rest).nodes k =
      { s.nodes k with frame := .awaiting s.next catches rest } :=
    (Function.update_of_ne (hnew k (.head _)) ..).trans (Function.update_self ..)
  have hothers : ∀ j ∈ ks, (elements_of s k nested catches rest).nodes j = s.nodes j :=
    fun j hj => (Function.update_of_ne (hnew j (.tail _ hj)) ..).trans
      (Function.update_of_ne (hk j hj) ..)
  have hnested : Nested (elements_of s k nested catches rest).nodes k ks :=
    ha.nested.congr (by rw [hcaller]) fun j hj => by
      rw [hothers j hj]
      exact ⟨rfl, rfl⟩
  have hruns := set_top_runs hnested ha.nodup rfl
  have hfresh : s.next ∉ k :: ks := fun hm => hnew _ hm rfl
  have htop : ∀ j ∈ ks, retop (elements_of s k nested catches rest).nodes (k :: ks) s.next j =
      { s.nodes j with top_ := some s.next } := fun j hj => by
    rw [retop_of_mem (.tail _ hj), hothers j hj]
  have hcallee : retop (elements_of s k nested catches rest).nodes (k :: ks) s.next s.next =
      { frame := .suspended nested, prev_ := some k, top_ := some s.next } :=
    (retop_of_notMem hfresh).trans hnode
  have hawaits : retop (elements_of s k nested catches rest).nodes (k :: ks) s.next k =
      { s.nodes k with frame := .awaiting s.next catches rest, top_ := some s.next } := by
    rw [retop_of_mem (.head ks), hcaller]
  have hrun : step { elements_of s k nested catches rest with
        nodes := retop (elements_of s k nested catches rest).nodes (k :: ks) s.next
        control := .resume s.next } = { elements_of s k nested catches rest with
        nodes := retop (elements_of s k nested catches rest).nodes (k :: ks) s.next
        control := .run s.next nested } := by
    simp only [step, resume, hcallee]
  refine ⟨_, .step (.of_ne (by rw [hs]; exact nofun)) hmake
    (hruns.trans (.step (.of_ne nofun) hrun (.refl (.of_ne nofun)))), rfl, rfl, ?_, ?_, ?_, ?_⟩
  · refine ⟨⟨congrArg Node.prev_ hcallee, ⟨catches, rest, congrArg Node.frame hawaits⟩, ?_⟩,
      fun j hj => ?_, List.nodup_cons.2 ⟨hfresh, ha.nodup⟩, fun j hj => ?_⟩
    · refine ha.nested.congr (by dsimp only; rw [hawaits]) fun j hj => ?_
      dsimp only
      rw [htop j hj]
      exact ⟨rfl, rfl⟩
    · dsimp only
      rcases List.mem_cons.1 hj with rfl | hj
      · exact congrArg Node.top_ hcallee
      · rw [retop_of_mem hj]
    · change j < s.next + 1
      rcases List.mem_cons.1 hj with rfl | hj
      · exact Nat.lt_succ_self _
      · exact Nat.lt_succ_of_lt (ha.fresh j hj)
  · exact congrArg Node.value_or_error_ hcallee
  · exact hawaits
  · exact htop

/-- What a body leaves at its end: the coroutine at its final suspend point or in its handler. -/
structure Ends (s : State α ε) (body : Body α ε) (k : Nat) (ks : List Nat) (t : State α ε) :
    Prop where
  control : t.control = match body.flatten.2 with
    | none => .final_suspend k
    | some e => .unhandled_exception k e
  yielded : t.yielded = s.yielded ++ body.flatten.1
  active : Active t k ks
  others : ∀ j ∈ ks, t.nodes j = s.nodes j
  value_or_error_ : ∀ e, (t.nodes k).value_or_error_ ≠ some (.error e)

theorem co_yield_runs {s : State α ε} (ha : Active s k ks)
    (hs : s.control = .run k (.co_yield value rest)) : ∃ t, Runs step Linked s t ∧
      t.control = .run k rest ∧ t.yielded = s.yielded ++ [value] ∧ Active t k ks ∧
      (∀ j ∈ ks, t.nodes j = s.nodes j) ∧ (t.nodes k).value_or_error_ = some (.ok value) := by
  have hk : ∀ j ∈ ks, j ≠ k := fun j hj he => by
    subst he
    exact (List.nodup_cons.1 ha.nodup).1 hj
  let node : Node α ε :=
    { s.nodes k with frame := .suspended rest, value_or_error_ := some (.ok value) }
  have hself : (s.set k node .consumer).nodes k = node := s.set_self
  have hsame : ∀ j ∈ ks, (s.set k node .consumer).nodes j = s.nodes j :=
    fun j hj => s.set_of_ne (hk j hj)
  have hnested : Nested (s.set k node .consumer).nodes k ks :=
    ha.nested.congr (by rw [hself]) fun j hj => by
      rw [hsame j hj]
      exact ⟨rfl, rfl⟩
  have htops : ∀ j ∈ k :: ks, ((s.set k node .consumer).nodes j).top_ = some k := fun j hj => by
    rcases List.mem_cons.1 hj with rfl | hks
    · rw [hself]
      exact ha.tops j hj
    · rw [hsame j hks]
      exact ha.tops j hj
  have hyield : step s = s.set k node .consumer := by
    rw [step, hs]
    rfl
  have hlinked : Linked (s.set k node .consumer) := fun _ =>
    .inr ⟨k, ks, rest, congrArg Node.frame hself, hnested, htops⟩
  have hread : step (s.set k node .consumer) = { s.set k node .consumer with
      yielded := s.yielded ++ [value], control := .resume k } := by
    obtain ⟨hmem, hroot⟩ := hnested.root
    have hframe := hroot (by rw [hself]; exact nofun)
    have htop := htops 0 hmem
    change consumer (s.set k node .consumer) = _
    unfold consumer
    split
    · exact absurd ‹_› hframe
    · rw [htop]
      simp only [hself, node]
      rfl
  have hresume : step { s.set k node .consumer with
      yielded := s.yielded ++ [value], control := .resume k } = { s.set k node .consumer with
      yielded := s.yielded ++ [value], control := .run k rest } := by
    simp only [step, resume, hself, node]
  exact ⟨_, .step (.of_ne (by rw [hs]; exact nofun)) hyield (.step hlinked hread
    (.step (.of_ne nofun) hresume (.refl (.of_ne nofun)))), rfl, rfl,
    ⟨hnested, htops, ha.nodup, ha.fresh⟩, hsame, congrArg Node.value_or_error_ hself⟩

/-- The exception of a nested generator is stored in its promise. -/
theorem unhandled_exception_runs {s : State α ε} (ha : Active s c (k :: ks))
    (hs : s.control = .unhandled_exception c e) : ∃ t, Runs step Linked s t ∧
      t.control = .resume k ∧ t.yielded = s.yielded ∧ t.next = s.next ∧
      (t.nodes c).value_or_error_ = some (.error e) ∧
      ∀ j ∈ k :: ks, t.nodes j = { s.nodes j with top_ := some k } := by
  have hc : ∀ j ∈ k :: ks, j ≠ c := fun j hj he => by
    subst he
    exact (List.nodup_cons.1 ha.nodup).1 hj
  let node : Node α ε := { s.nodes c with value_or_error_ := some (.error e) }
  have hself : (s.set c node (.final_suspend c)).nodes c = node := s.set_self
  have hsame : ∀ j ∈ k :: ks, (s.set c node (.final_suspend c)).nodes j = s.nodes j :=
    fun j hj => s.set_of_ne (hc j hj)
  have hstore : step s = s.set c node (.final_suspend c) := by
    simp only [step, hs, unhandled_exception, ha.tops c (.head _), ha.nested.1, node]
  have hactive : Active (s.set c node (.final_suspend c)) c (k :: ks) := by
    refine ⟨?_, fun j hj => ?_, ha.nodup, ha.fresh⟩
    · refine ha.nested.congr (by rw [hself]) fun j hj => ?_
      rw [hsame j hj]
      exact ⟨rfl, rfl⟩
    · rcases List.mem_cons.1 hj with rfl | hks
      · rw [hself]
        exact ha.tops j hj
      · rw [hsame j hks]
        exact ha.tops j hj
  obtain ⟨t, ht, hresume, hyielded, hnext, hnode, hothers⟩ := final_suspend_runs hactive rfl
  refine ⟨t, .step (.of_ne (by rw [hs]; exact nofun)) hstore ht, hresume, hyielded, hnext, ?_, ?_⟩
  · rw [hnode, hself]
  · intro j hj
    rw [hothers j hj, hsame j hj]

/-- A nested generator that ends resumes the one that awaits it, which finds the exception. -/
theorem Ends.returns {s t : State α ε} (h : Ends s nested c (k :: ks) t) :
    ∃ u, Runs step Linked t u ∧ u.control = .resume k ∧ u.yielded = t.yielded ∧ u.next = t.next ∧
      (∀ e, (u.nodes c).value_or_error_ = some (.error e) ↔ nested.flatten.2 = some e) ∧
      ∀ j ∈ k :: ks, u.nodes j = { t.nodes j with top_ := some k } := by
  have hcontrol := h.control
  cases hf : nested.flatten.2 with
  | none =>
    rw [hf] at hcontrol
    obtain ⟨u, hu, hresume, hyielded, hnext, hnode, hothers⟩ :=
      final_suspend_runs h.active hcontrol
    refine ⟨u, hu, hresume, hyielded, hnext, fun e => ?_, hothers⟩
    rw [hnode]
    exact ⟨fun he => absurd he (h.value_or_error_ e), nofun⟩
  | some e =>
    rw [hf] at hcontrol
    obtain ⟨u, hu, hresume, hyielded, hnext, hnode, hothers⟩ :=
      unhandled_exception_runs h.active hcontrol
    refine ⟨u, hu, hresume, hyielded, hnext, fun e' => ?_, hothers⟩
    rw [hnode, Option.some.injEq, Option.some.injEq, Except.error.injEq]

/-- A generator goes on after its nested one, unless an exception leaves its own body too. -/
theorem resume_goes_on {s : State α ε} (hs : s.control = .resume k)
    (hframe : (s.nodes k).frame = .awaiting c catches rest)
    (h : (∀ e, (s.nodes c).value_or_error_ ≠ some (.error e)) ∨ catches) :
    step s = { s with control := .run k rest } := by
  simp only [step, hs, resume, hframe]
  split
  · rcases h with h | h
    · exact absurd ‹_› (h _)
    · rw [if_pos h]
  · rfl

theorem resume_throws {s : State α ε} (hs : s.control = .resume k)
    (hframe : (s.nodes k).frame = .awaiting c catches rest)
    (hvalue : (s.nodes c).value_or_error_ = some (.error e)) (h : ¬ catches) :
    step s = { s with control := .unhandled_exception k e } := by
  simp only [step, hs, resume, hframe, hvalue, if_neg h]

/-- A body run in an active generator yields its elements depth-first. -/
theorem body_runs (body : Body α ε) (ha : Active s k ks) (hs : s.control = .run k body)
    (he : ∀ e, (s.nodes k).value_or_error_ ≠ some (.error e)) :
    ∃ t, Runs step Linked s t ∧ Ends s body k ks t := by
  induction body generalizing s k ks with
  | co_return =>
    have hreturn : step s = { s with control := .final_suspend k } := by
      rw [step, hs]
      rfl
    exact ⟨_, .step (.of_ne (by rw [hs]; exact nofun)) hreturn (.refl (.of_ne nofun)), rfl,
      (List.append_nil _).symm, ⟨ha.nested, ha.tops, ha.nodup, ha.fresh⟩, fun _ _ => rfl, he⟩
  | co_yield value rest ih =>
    obtain ⟨t, ht, hrest, hyielded, hactive, hothers, hvalue⟩ := co_yield_runs ha hs
    obtain ⟨u, hu, hends⟩ := ih hactive hrest (by rw [hvalue]; exact nofun)
    refine ⟨u, ht.trans hu, hends.control, ?_, hends.active, fun j hj => ?_, hends.value_or_error_⟩
    · rw [hends.yielded, hyielded, List.append_assoc]
      rfl
    · rw [hends.others j hj, hothers j hj]
  | elements_of nested catches rest ihn ihr =>
    obtain ⟨s₁, hr₁, hc₁, hy₁, ha₁, hv₁, hk₁, ho₁⟩ := elements_of_runs ha hs
    obtain ⟨s₂, hr₂, hends⟩ := ihn ha₁ hc₁ (by rw [hv₁]; exact nofun)
    obtain ⟨s₃, hr₃, hc₃, hy₃, hn₃, hv₃, ho₃⟩ := hends.returns
    have hk₃ : s₃.nodes k =
        { s.nodes k with frame := .awaiting s.next catches rest, top_ := some k } := by
      rw [ho₃ k (.head _), hends.others k (.head _), hk₁]
    have hj₃ : ∀ j ∈ ks, s₃.nodes j = s.nodes j := fun j hj => by
      rw [ho₃ j (.tail _ hj), hends.others j (.tail _ hj), ho₁ j hj, ← ha.tops j (.tail _ hj)]
    have ha₃ : Active s₃ k ks := by
      refine ⟨?_, fun j hj => ?_, ha.nodup, fun j hj => ?_⟩
      · refine ha.nested.congr (by rw [hk₃]) fun j hj => ?_
        rw [hj₃ j hj]
        exact ⟨rfl, rfl⟩
      · rw [ho₃ j hj]
      · rw [hn₃]
        exact hends.active.fresh j (.tail _ hj)
    have hr : Runs step Linked s s₃ := hr₁.trans (hr₂.trans hr₃)
    have hy : s₃.yielded = s.yielded ++ nested.flatten.1 := by
      rw [hy₃, hends.yielded, hy₁]
    have hframe : (s₃.nodes k).frame = .awaiting s.next catches rest := by rw [hk₃]
    by_cases hx : nested.flatten.2 = none ∨ catches
    · have hgo := resume_goes_on hc₃ hframe <| hx.imp_left fun hx e hv => by
        rw [(hv₃ e).1 hv] at hx
        cases hx
      obtain ⟨u, hu, hendu⟩ := ihr (s := { s₃ with control := .run k rest })
        ⟨ha₃.nested, ha₃.tops, ha₃.nodup, ha₃.fresh⟩ rfl (by dsimp only; rw [hk₃]; exact he)
      refine ⟨u, hr.trans (.step (.of_ne (by rw [hc₃]; exact nofun)) hgo hu), ?_, ?_,
        hendu.active, fun j hj => (hendu.others j hj).trans (hj₃ j hj), hendu.value_or_error_⟩
      · rw [Body.flatten, if_pos hx]
        exact hendu.control
      · rw [hendu.yielded, Body.flatten, if_pos hx, ← List.append_assoc, ← hy]
    · obtain ⟨e, hxe⟩ := Option.ne_none_iff_exists'.1 (mt Or.inl hx)
      have hthrow := resume_throws hc₃ hframe ((hv₃ e).2 hxe) (mt Or.inr hx)
      refine ⟨_, hr.trans (.step (.of_ne (by rw [hc₃]; exact nofun)) hthrow
        (.refl (.of_ne nofun))), ?_, ?_, ⟨ha₃.nested, ha₃.tops, ha₃.nodup, ha₃.fresh⟩, hj₃, ?_⟩
      · rw [Body.flatten, if_neg hx, hxe]
      · rw [Body.flatten, if_neg hx]
        exact hy
      · rw [hk₃]
        exact he
  | throw e =>
    have hthrow : step s = { s with control := .unhandled_exception k e } := by
      rw [step, hs]
      rfl
    exact ⟨_, .step (.of_ne (by rw [hs]; exact nofun)) hthrow (.refl (.of_ne nofun)), rfl,
      (List.append_nil _).symm, ⟨ha.nested, ha.tops, ha.nodup, ha.fresh⟩, fun _ _ => rfl, he⟩

theorem begin_node (body : Body α ε) : (begin (initial body)).nodes 0 =
    { frame := .suspended body, top_ := some 0 } := by
  have hnode : (initial body).nodes 0 = { frame := .suspended body } := by
    change update (fun _ : Nat => ({} : Node α ε)) 0 _ 0 = _
    exact Function.update_self 0 _ _
  unfold begin
  rw [State.set_self, hnode]

theorem begin_active (body : Body α ε) : Active (begin (initial body)) 0 [] where
  nested := ⟨rfl, by rw [begin_node]⟩
  tops := fun j hj => by rw [List.mem_singleton.1 hj, begin_node]
  nodup := List.pairwise_singleton _ 0
  fresh := fun j hj => by
    rw [List.mem_singleton.1 hj]
    exact Nat.one_pos

/-- The root has nobody to store its exception for. -/
theorem Ends.finishes {s t : State α ε} (h : Ends s body 0 [] t) : ∃ u, Runs step Linked t u ∧
    u.control = .ended body.flatten.2 ∧ u.yielded = t.yielded := by
  have hcontrol := h.control
  have hprev : (t.nodes 0).prev_ = none := h.active.nested.2
  cases hf : body.flatten.2 with
  | none =>
    rw [hf] at hcontrol
    have hfinal : step t = t.set 0 { t.nodes 0 with frame := .done } .consumer := by
      simp only [step, hcontrol, final_suspend, hprev]
    have hdone : ((t.set 0 { t.nodes 0 with frame := .done } .consumer).nodes 0).frame = .done := by
      rw [State.set_self]
    have hend : step (t.set 0 { t.nodes 0 with frame := .done } .consumer) =
        t.set 0 { t.nodes 0 with frame := .done } (.ended none) := by
      change consumer (t.set 0 { t.nodes 0 with frame := .done } .consumer) = _
      unfold consumer
      rw [hdone]
      rfl
    exact ⟨_, .step (.of_ne (by rw [hcontrol]; exact nofun)) hfinal
      (.step (fun _ => .inl hdone) hend (.refl (.of_ne nofun))), rfl, rfl⟩
  | some e =>
    rw [hf] at hcontrol
    have hthrow : step t = t.set 0 { t.nodes 0 with frame := .done } (.ended (some e)) := by
      simp only [step, hcontrol, unhandled_exception, h.active.tops 0 (.head _), hprev]
    exact ⟨_, .step (.of_ne (by rw [hcontrol]; exact nofun)) hthrow (.refl (.of_ne nofun)),
      rfl, rfl⟩

/-- Iterating the root yields the elements depth-first up to the first exception that nobody
catches, which leaves `begin()` or `operator++`, and the links are right at every suspension. -/
theorem iterates (body : Body α ε) : ∃ t, Leads step (initial body) t ∧
    t.control = .ended body.flatten.2 ∧ t.yielded = body.flatten.1 ∧
    ∀ n, Linked (step^[n] (initial body)) := by
  have hresume : step (begin (initial body)) =
      { begin (initial body) with control := .run 0 body } := by
    change resume (begin (initial body)) 0 = _
    unfold resume
    rw [begin_node]
  have ha := begin_active body
  obtain ⟨t, ht, hends⟩ := body_runs (s := { begin (initial body) with control := .run 0 body })
    body ⟨ha.nested, ha.tops, ha.nodup, ha.fresh⟩ rfl (by dsimp only; rw [begin_node]; exact nofun)
  obtain ⟨u, hu, hended, hyielded⟩ := hends.finishes
  have hruns : Runs step Linked (initial body) u :=
    .step (.of_ne nofun) rfl (.step (.of_ne nofun) hresume (ht.trans hu))
  have hstay : step u = u := by
    unfold step
    rw [hended]
  exact ⟨u, hruns.leads, hended, hyielded.trans hends.yielded, hruns.always hstay⟩

end Coio.Generator
