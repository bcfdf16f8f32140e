import Coio.Lib.Progress
import Coio.StopCombiner.Model
import Mathlib.Data.Fintype.Basic

namespace Coio.StopCombiner
open Transition
set_option autoImplicit true

/-- Nobody has executed the callback beyond the exchange. -/
def Pc.Before : Pc → Prop
  | .unconstructed | .registered | .exchange | .removed => True
  | _ => False

/-- The callback is or was executed. -/
def Pc.Called : Pc → Prop
  | .exchange | .invoke | .invoking | .returning | .executed => True
  | _ => False

/-- The callback still has to touch the object. -/
def Pc.Touches : Pc → Prop
  | .registered | .exchange | .invoke => True
  | _ => False

/-- One call of `fn` was made, or one callback is about to make it. -/
def Spent (invocations : Nat) (pc : ι → Pc) : Prop :=
  (invocations = 0 ∧ ∃ i, pc i = .invoke ∧ ∀ j, pc j = .invoke → j = i) ∨
    (invocations = 1 ∧ ∀ i, pc i ≠ .invoke)

theorem Spent.update [DecidableEq ι] {pc : ι → Pc} (h : Spent n pc) (hi : pc i ≠ .invoke)
    (hv : v ≠ .invoke) : Spent n (Function.update pc i v) := by
  have hiff : ∀ j, Function.update pc i v j = .invoke ↔ pc j = .invoke := fun j => by
    by_cases hj : j = i
    · rw [hj, Function.update_self]
      exact iff_of_false hv hi
    · rw [Function.update_of_ne hj]
  simpa only [Spent, hiff, ne_eq] using h

/-- What holds of the callback `i` at the step `pc`. The destructor only leaves a callback inside of
`fn` behind if it was called there. -/
structure CallbackInv (requested present : Bool) (phase : Phase ι) (i : ι) (pc : Pc) : Prop where
  alive : pc.Touches → present = true
  absent : pc = .removed → present = false
  built : pc = .unconstructed → ∃ inside, phase = .constructing inside
  gone : phase = .destroyed → present = false
  called : pc.Called → requested = true
  within : phase = .destroying (some i) → pc = .invoking
  inside : pc = .invoking → present = true ∨ phase = .destroying (some i) ∨ phase = .destroyed

section Callback

variable {requested present : Bool} {phase phase' : Phase ι} {i : ι} {pc pc' : Pc}

theorem CallbackInv.request (h : CallbackInv requested present phase i pc) :
    CallbackInv true present phase i pc :=
  { h with called := fun _ => rfl }

/-- A step in another phase before the destruction. -/
theorem CallbackInv.rephase (h : CallbackInv requested present phase i pc)
    (hp : phase ≠ .destroyed ∧ ∀ w, phase ≠ .destroying w)
    (hp' : phase' ≠ .destroyed ∧ ∀ w, phase' ≠ .destroying w)
    (hb : pc = .unconstructed → ∃ inside, phase' = .constructing inside) :
    CallbackInv requested present phase' i pc :=
  { h with
    built := hb
    gone := fun hd => absurd hd hp'.1
    within := fun hw => absurd hw (hp'.2 _)
    inside := fun hi => (h.inside hi).imp_right fun hd => (hd.elim (hp.2 _) hp.1).elim }

/-- A callback that is executed goes on. -/
theorem CallbackInv.move (h : CallbackInv requested present phase i pc) (hc : pc.Called)
    (ht : pc'.Touches → pc.Touches) (hr : pc' ≠ .removed) (hu : pc' ≠ .unconstructed)
    (hw : phase ≠ .destroying (some i)) (hi : pc' = .invoking → pc.Touches) :
    CallbackInv requested present phase i pc' where
  alive ht' := h.alive (ht ht')
  absent hr' := absurd hr' hr
  built hu' := absurd hu' hu
  gone := h.gone
  called _ := h.called hc
  within hw' := absurd hw' hw
  inside hi' := .inl (h.alive (hi hi'))

end Callback

/-- While the flag is set nobody is beyond the exchange, and `fn` is called by one callback. -/
structure Inv (source : ι → σ) (s : State ι σ) : Prop where
  fresh : s.flag = true → s.invocations = 0 ∧ ∀ i, (s.pc i).Before
  spent : s.flag = false → Spent s.invocations s.pc
  blame : s.flag = false → s.stop_requested source
  callback : ∀ i, CallbackInv (s.requested (source i)) (s.present i) s.phase i (s.pc i)

variable [DecidableEq ι] [DecidableEq σ] [Fintype ι] {source : ι → σ} {s t : State ι σ}

theorem Inv.init : Inv source (system source).init where
  fresh _ := ⟨rfl, fun _ => trivial⟩
  spent := by simp [system]
  blame := by simp [system]
  callback i := by constructor <;> simp [system, Pc.Touches, Pc.Called]

omit [DecidableEq ι] [DecidableEq σ] [Fintype ι] in
/-- Before the exchange the callback of a destructor is not inside of `fn`. -/
theorem Inv.not_within (h : Inv source s) (hi : s.pc i ≠ .invoking) :
    s.phase ≠ .destroying (some i) :=
  fun hw => hi ((h.callback i).within hw)

theorem Inv.requestStop (h : Inv source s) (hs : step source s (.requestStop c) = some t) :
    Inv source t := by
  obtain ⟨-, rfl⟩ := enabled_iff.1 hs
  exact { h with
    blame := fun hf => by
      obtain ⟨i, hr⟩ := h.blame hf
      refine ⟨i, ?_⟩
      by_cases hi : source i = c
      · rw [hi]
        exact Function.update_self ..
      · exact (Function.update_of_ne hi ..).trans hr
    callback := fun i => by
      by_cases hi : source i = c
      · simp only [hi, Function.update_self]
        exact (h.callback i).request
      · simp only [Function.update_of_ne hi]
        exact h.callback i }

theorem Inv.construct (h : Inv source s) (hs : step source s (.construct i) = some t) :
    Inv source t := by
  obtain ⟨⟨hphase, hpc⟩, hs⟩ := Option.ite_none_right_eq_some.1 hs
  have hold : ∀ {a}, (∀ w, (.constructing a : Phase ι) ≠ .destroying w) := by simp
  have hfresh : ∀ {v : Pc}, v.Before → s.flag = true → s.invocations = 0 ∧
      ∀ j, (Function.update s.pc i v j).Before := fun hv hf =>
    ⟨(h.fresh hf).1, forall_update (P := fun _ (q : Pc) => q.Before) (h.fresh hf).2 hv⟩
  -- the other callbacks only see another phase of the constructor
  have hother : ∀ {a v}, ∀ j, j ≠ i → CallbackInv (s.requested (source j))
      (Function.update s.present i true j) (.constructing a) j (Function.update s.pc i v j) :=
    fun j hj => by
      rw [Function.update_of_ne hj, Function.update_of_ne hj]
      have hc := h.callback j
      rw [hphase] at hc
      exact hc.rephase ⟨by simp, hold⟩ ⟨by simp, hold⟩ fun _ => ⟨_, rfl⟩
  split at hs
  · rename_i hr
    obtain rfl := Option.some.inj hs
    exact {
      fresh := hfresh trivial
      spent := fun hf => (h.spent hf).update (by simp [hpc]) (by simp)
      blame := h.blame
      callback := fun j => by
        by_cases hj : j = i
        · subst hj
          simp only [Function.update_self]
          constructor <;> simp [hr]
        · exact hother j hj }
  · obtain rfl := Option.some.inj hs
    exact {
      fresh := hfresh trivial
      spent := fun hf => (h.spent hf).update (by simp [hpc]) (by simp)
      blame := h.blame
      callback := fun j => by
        show CallbackInv _ _ s.phase _ _
        rw [hphase]
        by_cases hj : j = i
        · subst hj
          simp only [Function.update_self]
          constructor <;> simp [Pc.Called]
        · exact hother j hj }

theorem Inv.constructed (h : Inv source s) (hs : step source s .constructed = some t) :
    Inv source t := by
  obtain ⟨⟨hphase, hpc⟩, rfl⟩ := enabled_iff.1 hs
  exact { h with
    callback := fun i => (h.callback i).rephase (by simp [hphase]) (by simp)
      fun hu => absurd hu (hpc i) }

theorem Inv.execute (h : Inv source s) (hs : step source s (.execute i) = some t) :
    Inv source t := by
  obtain ⟨⟨hr, -, hpc⟩, rfl⟩ := enabled_iff.1 hs
  have hpresent : s.present i = true := (h.callback i).alive (by rw [hpc]; trivial)
  exact {
    fresh := fun hf => ⟨(h.fresh hf).1,
      forall_update (P := fun _ (q : Pc) => q.Before) (h.fresh hf).2 trivial⟩
    spent := fun hf => (h.spent hf).update (by simp [hpc]) (by simp)
    blame := h.blame
    callback := forall_update
      (P := fun j q => CallbackInv (s.requested (source j)) (s.present j) s.phase j q) h.callback
      { alive := fun _ => hpresent
        absent := by simp
        built := by simp
        gone := (h.callback i).gone
        called := fun _ => hr
        within := fun hw => absurd hw (h.not_within (by simp [hpc]))
        inside := by simp } }

theorem Inv.exchange (h : Inv source s) (hs : step source s (.exchange i) = some t) :
    Inv source t := by
  obtain ⟨hpc, rfl⟩ := enabled_iff.1 hs
  have hcallback := h.callback i
  rw [hpc] at hcallback
  have hstop : s.requested (source i) = true := hcallback.called trivial
  exact {
    fresh := by simp
    spent := fun _ => by
      cases hf : s.flag with
      | true =>
        -- nobody else is beyond the exchange
        obtain ⟨hn, hbefore⟩ := h.fresh hf
        refine .inl ⟨hn, i, by simp, fun j hj => ?_⟩
        by_contra hne
        have hb := hbefore j
        rw [(Function.update_of_ne hne ..).symm.trans hj] at hb
        exact hb
      | false => exact (h.spent hf).update (by simp [hpc]) (by simp)
    blame := fun _ => ⟨i, hstop⟩
    callback := forall_update
      (P := fun j q => CallbackInv (s.requested (source j)) (s.present j) s.phase j q) h.callback
      (hcallback.move trivial (fun _ => trivial) (by split <;> simp) (by split <;> simp)
        (h.not_within (by simp [hpc])) (fun _ => trivial)) }

theorem Inv.invoke (h : Inv source s) (hs : step source s (.invoke i) = some t) :
    Inv source t := by
  obtain ⟨hpc, rfl⟩ := enabled_iff.1 hs
  have hcallback := h.callback i
  rw [hpc] at hcallback
  exact {
    fresh := fun hf => by
      have hb := (h.fresh hf).2 i
      rw [hpc] at hb
      exact hb.elim
    spent := fun hf => by
      rcases h.spent hf with ⟨hn, j, -, hunique⟩ | ⟨-, hno⟩
      · obtain rfl := hunique i hpc
        refine .inr ⟨by rw [hn], fun k hk => ?_⟩
        by_cases hki : k = i
        · subst hki
          cases (Function.update_self ..).symm.trans hk
        · exact hki (hunique k ((Function.update_of_ne hki ..).symm.trans hk))
      · exact absurd hpc (hno i)
    blame := h.blame
    callback := forall_update
      (P := fun j q => CallbackInv (s.requested (source j)) (s.present j) s.phase j q) h.callback
      (hcallback.move trivial (fun _ => trivial) (by simp) (by simp)
        (h.not_within (by simp [hpc])) (fun _ => trivial)) }

theorem Inv.fnReturns (h : Inv source s) (hs : step source s (.fnReturns i) = some t) :
    Inv source t := by
  obtain ⟨⟨hpc, hphase⟩, rfl⟩ := enabled_iff.1 hs
  have hcallback := h.callback i
  rw [hpc] at hcallback
  exact {
    fresh := fun hf => by
      have hb := (h.fresh hf).2 i
      rw [hpc] at hb
      exact hb.elim
    spent := fun hf => (h.spent hf).update (by simp [hpc]) (by simp)
    blame := h.blame
    callback := forall_update
      (P := fun j q => CallbackInv (s.requested (source j)) (s.present j) s.phase j q) h.callback
      (hcallback.move trivial (fun ht => ht.elim) (by simp) (by simp) hphase (by simp)) }

theorem Inv.finish (h : Inv source s) (hs : step source s (.finish i) = some t) :
    Inv source t := by
  obtain ⟨hpc, rfl⟩ := enabled_iff.1 hs
  have hcallback := h.callback i
  rw [hpc] at hcallback
  have hmoved := forall_update (v := .executed)
    (P := fun j q => CallbackInv (s.requested (source j)) (s.present j) s.phase j q) h.callback
    (hcallback.move trivial (fun ht => ht.elim) (by simp) (by simp)
      (h.not_within (by simp [hpc])) (by simp))
  exact {
    fresh := fun hf => by
      have hb := (h.fresh hf).2 i
      rw [hpc] at hb
      exact hb.elim
    spent := fun hf => (h.spent hf).update (by simp [hpc]) (by simp)
    blame := h.blame
    callback := fun j => by
      by_cases hphase : s.phase = .constructing (some i)
      · simp only [if_pos hphase]
        exact (hmoved j).rephase (by simp [hphase]) (by simp) fun _ => ⟨_, rfl⟩
      · simp only [if_neg hphase]
        exact hmoved j }

theorem Inv.destroy (h : Inv source s) (hs : step source s (.destroy w) = some t) :
    Inv source t := by
  obtain ⟨⟨hphase, hw⟩, rfl⟩ := enabled_iff.1 hs
  exact { h with
    callback := fun i => by
      have hc := h.callback i
      rw [hphase] at hc
      exact { hc with
        built := fun hu => by
          obtain ⟨inside, hp⟩ := hc.built hu
          cases hp
        gone := by simp
        within := fun hi => hw i (Phase.destroying.inj hi)
        inside := fun hi => .inl ((hc.inside hi).resolve_right (by simp)) } }

theorem Inv.deregister (h : Inv source s) (hs : step source s (.deregister i) = some t) :
    Inv source t := by
  simp only [StopCombiner.step] at hs
  split at hs
  · rename_i within hphase
    obtain ⟨⟨-, hpc⟩, rfl⟩ := enabled_iff.1 hs
    have hi := h.callback i
    rw [hphase] at hi
    have hinvoking : within = some i → s.pc i = .invoking := fun hw => hi.within (by rw [hw])
    refine {
      fresh := fun hf => ⟨(h.fresh hf).1, fun j => ?_⟩
      spent := fun hf => ?_
      blame := h.blame
      callback := fun j => ?_ }
    · have hbefore := (h.fresh hf).2
      split
      · exact forall_update (v := .removed) (P := fun _ (q : Pc) => q.Before) hbefore trivial j
      · exact hbefore j
    · split
      · rename_i hreg
        exact (h.spent hf).update (by simp [hreg]) (by simp)
      · exact h.spent hf
    · show CallbackInv _ _ s.phase _ _
      rw [hphase]
      by_cases hj : j = i
      · subst hj
        simp only [Function.update_self]
        by_cases hreg : s.pc j = .registered
        · simp only [if_pos hreg, Function.update_self]
          have hwithin : within ≠ some j := fun hw => by
            rw [hinvoking hw] at hreg
            cases hreg
          constructor <;> simp [Pc.Touches, Pc.Called, hwithin]
        · simp only [if_neg hreg]
          have hend : s.pc j = .executed ∨ within = some j := hpc.resolve_left hreg
          exact {
            alive := fun ht => by
              rcases hend with he | hw
              · rw [he] at ht
                exact ht.elim
              · rw [hinvoking hw] at ht
                exact ht.elim
            absent := fun _ => rfl
            built := hi.built
            gone := fun _ => rfl
            called := hi.called
            within := hi.within
            inside := fun hp => by
              rcases hend with he | hw
              · rw [he] at hp
                cases hp
              · exact .inr (.inl (by rw [hw])) }
      · have hc := h.callback j
        rw [hphase] at hc
        split <;> simp only [Function.update_of_ne hj] <;> exact hc
  · cases hs

theorem Inv.destroyed (h : Inv source s) (hs : step source s .destroyed = some t) :
    Inv source t := by
  simp only [StopCombiner.step] at hs
  split at hs
  · rename_i within hphase
    obtain ⟨hpresent, rfl⟩ := enabled_iff.1 hs
    exact { h with
      callback := fun i => { h.callback i with
        built := fun hu => by
          obtain ⟨inside, hp⟩ := (h.callback i).built hu
          cases hphase.symm.trans hp
        gone := fun _ => hpresent i
        within := by simp
        inside := fun _ => .inr (.inr rfl) } }
  · cases hs

theorem Inv.step (h : Inv source s) (hs : step source s a = some t) : Inv source t := by
  cases a with
  | requestStop => exact h.requestStop hs
  | construct => exact h.construct hs
  | constructed => exact h.constructed hs
  | execute => exact h.execute hs
  | exchange => exact h.exchange hs
  | invoke => exact h.invoke hs
  | fnReturns => exact h.fnReturns hs
  | finish => exact h.finish hs
  | destroy => exact h.destroy hs
  | deregister => exact h.deregister hs
  | destroyed => exact h.destroyed hs

/-- The destructor only returns while a callback is inside of `fn` if it was called there. -/
theorem Inv.destroyed_within (h : Inv source s)
    (hs : StopCombiner.step source s .destroyed = some t)
    (hi : s.pc i = .invoking) : s.phase = .destroying (some i) := by
  simp only [StopCombiner.step] at hs
  split at hs
  · rename_i within hphase
    obtain ⟨hpresent, -⟩ := enabled_iff.1 hs
    rcases (h.callback i).inside hi with hp | hw | hd
    · rw [hpresent i] at hp
      cases hp
    · exact hw
    · cases hphase.symm.trans hd
  · cases hs

theorem Inv.reachable (h : (system source).Reachable s) : Inv source s := by
  have hi : (system source).Invariant (Inv source) := ⟨.init, fun _ _ _ _ h hs => h.step hs⟩
  exact hi.reachable h

/-- The destructor goes on, and the callbacks in `l` are destroyed. -/
def Gone (source : ι → σ) (within : Option ι) (l : List ι) (s : State ι σ) : Prop :=
  Inv source s ∧ s.phase = .destroying within ∧ ∀ j ∈ l, s.present j = false

/-- What the threads that execute the callbacks do by themselves, and the destructor. -/
def Act.Internal : Act ι σ → Prop
  | .exchange _ | .invoke _ | .fnReturns _ | .finish _ | .deregister _ | .destroyed => True
  | _ => False

theorem leads_step {P : State ι σ → Prop} (hs : step source s a = some t) (ha : a.Internal)
    (h : (system source).Leads Act.Internal P t) : (system source).Leads Act.Internal P s :=
  .cons (M := system source) hs ha h

section Destructor

variable {within : Option ι} {l : List ι}

theorem Gone.leads_deregister (h : Gone source within l s)
    (hp : s.present i = true → s.pc i = .registered ∨ s.pc i = .executed ∨ within = some i) :
    (system source).Leads Act.Internal (Gone source within (i :: l)) s := by
  obtain ⟨hi, hphase, hl⟩ := h
  cases hpresent : s.present i with
  | false => exact .here ⟨hi, hphase, List.forall_mem_cons.2 ⟨hpresent, hl⟩⟩
  | true =>
    have hs : step source s (.deregister i) = some { s with
        present := Function.update s.present i false
        pc := if s.pc i = .registered then Function.update s.pc i .removed else s.pc } := by
      simp only [step, hphase]
      rw [if_pos ⟨hpresent, hp hpresent⟩]
    refine leads_step hs trivial (.here ⟨hi.step hs, hphase, List.forall_mem_cons.2 ⟨?_, ?_⟩⟩)
    · exact Function.update_self ..
    · intro j hj
      by_cases hji : j = i
      · rw [hji]
        exact Function.update_self ..
      · exact (Function.update_of_ne hji ..).trans (hl j hj)

theorem Gone.leads_returning (h : Gone source within l s) (hpc : s.pc i = .returning) :
    (system source).Leads Act.Internal (Gone source within (i :: l)) s := by
  obtain ⟨hi, hphase, hl⟩ := h
  have hs : step source s (.finish i) = some { s with
      executing := if s.executing (source i) = some i then
          Function.update s.executing (source i) none
        else s.executing
      pc := Function.update s.pc i .executed } := by
    simp only [step, hpc, if_true, hphase, reduceCtorEq, if_false]
  have hg : Gone source within l _ := ⟨hi.step hs, hphase, hl⟩
  exact leads_step hs trivial (hg.leads_deregister fun _ => .inr (.inl (Function.update_self ..)))

theorem Gone.leads_invoking (h : Gone source within l s) (hpc : s.pc i = .invoking) :
    (system source).Leads Act.Internal (Gone source within (i :: l)) s := by
  by_cases hw : within = some i
  · exact h.leads_deregister fun _ => .inr (.inr hw)
  · obtain ⟨hi, hphase, hl⟩ := h
    have hs : step source s (.fnReturns i) =
        some { s with pc := Function.update s.pc i .returning } :=
      if_pos ⟨hpc, by simpa [hphase] using hw⟩
    have hg : Gone source within l _ := ⟨hi.step hs, hphase, hl⟩
    exact leads_step hs trivial (hg.leads_returning (Function.update_self ..))

theorem Gone.leads_invoke (h : Gone source within l s) (hpc : s.pc i = .invoke) :
    (system source).Leads Act.Internal (Gone source within (i :: l)) s := by
  obtain ⟨hi, hphase, hl⟩ := h
  have hs : step source s (.invoke i) = some { s with
      pc := Function.update s.pc i .invoking, invocations := s.invocations + 1 } := if_pos hpc
  have hg : Gone source within l _ := ⟨hi.step hs, hphase, hl⟩
  exact leads_step hs trivial (hg.leads_invoking (Function.update_self ..))

/-- A callback that is executed comes to its end, whoever executes it, unless the destructor was
called inside of it. -/
theorem Gone.leads (h : Gone source within l s) (i : ι) :
    (system source).Leads Act.Internal (Gone source within (i :: l)) s := by
  have ⟨hi, hphase, hl⟩ := h
  cases hpc : s.pc i with
  | unconstructed =>
    obtain ⟨inside, hc⟩ := (hi.callback i).built hpc
    rw [hphase] at hc
    cases hc
  | registered => exact h.leads_deregister fun _ => .inl hpc
  | executed => exact h.leads_deregister fun _ => .inr (.inl hpc)
  | removed =>
    refine h.leads_deregister fun hp => ?_
    rw [(hi.callback i).absent hpc] at hp
    cases hp
  | returning => exact h.leads_returning hpc
  | invoking => exact h.leads_invoking hpc
  | invoke => exact h.leads_invoke hpc
  | exchange =>
    have hs : step source s (.exchange i) = some { s with
        flag := false
        pc := Function.update s.pc i (if s.flag then .invoke else .returning) } := if_pos hpc
    have hg : Gone source within l _ := ⟨hi.step hs, hphase, hl⟩
    refine leads_step hs trivial ?_
    by_cases hf : s.flag = true
    · exact hg.leads_invoke (i := i) (by simp [hf])
    · exact hg.leads_returning (i := i) (by simp [hf])

end Destructor

/-- The destructor waits for nobody but the threads that execute a callback. -/
theorem Inv.leads_destroyed (h : Inv source s) (hphase : s.phase = .destroying w) :
    (system source).Leads Act.Internal (fun t => t.phase = .destroyed) s := by
  obtain ⟨l, hl⟩ : ∃ l : List ι, ∀ i, i ∈ l :=
    ⟨Finset.univ.toList, fun i => Finset.mem_toList.2 (Finset.mem_univ i)⟩
  have hgone : (system source).Leads Act.Internal (Gone source w l) s := by
    clear hl
    induction l with
    | nil => exact .here ⟨h, hphase, nofun⟩
    | cons i l ih => exact ih.trans fun t ht => ht.leads i
  refine hgone.trans fun t ⟨_, htphase, hpresent⟩ => ?_
  have hs : StopCombiner.step source t .destroyed = some { t with phase := .destroyed } := by
    simp only [StopCombiner.step, htphase]
    exact if_pos fun i => hpresent i (hl i)
  exact leads_step hs trivial (.here rfl)

/-- The callback of a `stop_combiner` is called at most once, only when a stop is requested, never
after its destruction, and exactly once when the sources that were requested have executed theirs.
A callback inside of `fn` is there until it returns, unless the destructor was called in it. The
destructor does not block for ever. -/
theorem call_once (h : (system source).Reachable s) :
    s.invocations ≤ 1 ∧ (0 < s.invocations → s.stop_requested source) ∧
    (∀ i, (s.pc i).Touches → s.present i = true ∧ s.phase ≠ .destroyed) ∧
    (∀ i, s.pc i = .invoking →
      s.present i = true ∨ s.phase = .destroying (some i) ∨ s.phase = .destroyed) ∧
    (∀ i t, step source s .destroyed = some t → s.pc i = .invoking →
      s.phase = .destroying (some i)) ∧
    ((∀ i, s.requested (source i) = true → s.pc i = .executed) →
      (s.invocations = 1 ↔ s.stop_requested source)) ∧
    (∀ within, s.phase = .destroying within →
      (system source).Leads Act.Internal (fun t => t.phase = .destroyed) s) := by
  have hi := Inv.reachable h
  have hspent : s.flag = false → s.invocations ≤ 1 ∧
      ((∀ i, s.pc i ≠ .invoke) → s.invocations = 1) := fun hf => by
    rcases hi.spent hf with ⟨hn, i, hpc, -⟩ | ⟨hn, -⟩
    · exact ⟨by omega, fun hno => absurd hpc (hno i)⟩
    · exact ⟨by omega, fun _ => hn⟩
  have hcalled : 0 < s.invocations → s.stop_requested source := fun hn => by
    refine hi.blame (Bool.eq_false_iff.2 fun hf => ?_)
    have := (hi.fresh hf).1
    omega
  refine ⟨?_, hcalled, fun i ht => ?_, fun i => (hi.callback i).inside,
    fun i t => hi.destroyed_within, fun hall => ⟨fun hn => hcalled (by omega), ?_⟩,
    fun within => hi.leads_destroyed⟩
  · cases hf : s.flag with
    | true => exact Nat.le_trans (Nat.le_of_eq (hi.fresh hf).1) (Nat.zero_le 1)
    | false => exact (hspent hf).1
  · have halive := (hi.callback i).alive ht
    refine ⟨halive, fun hd => ?_⟩
    rw [(hi.callback i).gone hd] at halive
    cases halive
  · rintro ⟨i, hr⟩
    have hf : s.flag = false := Bool.eq_false_iff.2 fun hf => by
      have hb := (hi.fresh hf).2 i
      rw [hall i hr] at hb
      exact hb
    refine (hspent hf).2 fun j hj => ?_
    have hrj := (hi.callback j).called (by rw [hj]; trivial)
    rw [hall j hrj] at hj
    cases hj

/-- The destructor is called inside of `fn`, while another source executes its callback. -/
def withinRun : List (Act Bool Bool) :=
  [.construct false, .construct true, .constructed, .requestStop false, .requestStop true,
    .execute false, .execute true, .exchange true, .invoke true, .destroy (some true)]

theorem call_once_within : ∃ s, (system id).exec (system id).init withinRun = some s ∧
    s.pc false = .exchange ∧ s.invocations ≤ 1 ∧
    (system id).Leads Act.Internal (fun t => t.phase = .destroyed) s := by
  have hend : ((system id).exec (system id).init withinRun).map
      (fun s => (s.phase, s.pc false)) = some (.destroying (some true), .exchange) := rfl
  obtain ⟨s, hs, he⟩ := Option.map_eq_some_iff.1 hend
  obtain ⟨hphase, hpc⟩ := Prod.mk.inj he
  have honce := call_once ((system id).reachable_exec withinRun hs)
  exact ⟨s, hs, hpc, honce.1, honce.2.2.2.2.2.2 (some true) hphase⟩

end Coio.StopCombiner
