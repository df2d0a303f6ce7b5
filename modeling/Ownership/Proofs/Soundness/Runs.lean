import Ownership.Proofs.Soundness.Heap
import Ownership.Proofs.Strategies

/-!
# Runs that leave a sound heap

A term runs from one state to another if both strategies evaluate it, to the same value
and state, and the heap is sound after every small step: in balance with the values in
what is left of the term and the values `V` of the operands before it (`Machine.Runs`). The run of
a term is put together from the runs of its parts, one lemma for each term former.

* `Machine.RunsAll`, `Runs.block`: statements, with the values between them dropped.
* `Machine.RunsOperands`, `Runs.tuple`: operands, each with the values of those before it.
* `Runs.conditional`: the operands, and the arm that is taken.
-/

namespace Ownership

variable {m : Machine} {k l inner : Lifetime} {s s' s₁ s₂ s₃ : State} {t u : Term} {ts : List Term}
variable {v w left right : Value} {V V' vs ws : List Value} {sp : Span} {p : Place}

/-- A term without values but integers holds no reference. -/
theorem Term.Plain.references (h : t.Plain) : t.values.flatMap Value.references = [] := by
  rw [List.flatMap_eq_nil_iff]
  intro v hv
  obtain ⟨n, rfl⟩ := h v hv
  rfl

theorem references_plain (h : ∀ t ∈ ts, t.Plain) :
    (ts.reverse.flatMap Term.values).flatMap Value.references = [] := by
  rw [List.flatMap_assoc, List.flatMap_eq_nil_iff]
  exact fun t ht => (h t (List.mem_reverse.1 ht)).references

namespace Machine

/-- The heap is sound with the values in the term and with `V`. -/
def HeapSound (V : List Value) (s : State) (t : Term) : Prop := s.store.Sound (t.values ++ V)

theorem HeapSound.congr (h : HeapSound V s t)
    (e : ((u.values ++ V').flatMap Value.references).Perm
      ((t.values ++ V).flatMap Value.references)) : HeapSound V' s u :=
  Store.Sound.congr h e

variable [HashOrder]

/-- **Both strategies evaluate `t`** to `v`, with a sound heap after every step. -/
structure Runs (m : Machine) (l : Lifetime) (V : List Value) (s : State) (t : Term) (s' : State)
    (v : Value) : Prop where
  small : Evaluates m l (HeapSound V) s t (.ok (s', v))
  big : m.bigValue s l t = .ok (s', v)

/-- The run of a part, in a context that keeps the references. -/
theorem Runs.congr {C : Term → Term} {r : State × Value} (h : m.Runs k V s t s₁ v)
    (hC : Context m k l C)
    (hV : ∀ t, (((C t).values ++ V').flatMap Value.references).Perm
      ((t.values ++ V).flatMap Value.references))
    (hr : ∀ sp, Evaluates m l (HeapSound V') s₁ (C (.value sp v)) (.ok r)) :
    Evaluates m l (HeapSound V') s (C t) (.ok r) :=
  h.small.congr (F := fun _ => .ok r) hC (fun _ t hs => hs.congr (hV t)) fun s' v' sp e => by
    cases e
    exact hr sp

/-- A last step. -/
theorem evaluates_rule (hv : t.value? = none)
    (h : (m.smallStep s l t).result = .ok (s', .ofValue v)) (hs : s'.store.Sound (v :: V)) :
    Evaluates m l (HeapSound V) s t (.ok (s', v)) :=
  .of_rule hv h fun s' w e => by
    cases e
    exact hs

omit [HashOrder] in
theorem reduct_of_ok {x : Run (State × Value)} (h : x.result = .ok (s', v)) :
    x.reduct.result = .ok (s', .ofValue v) := by
  rw [reduct_result, h]
  rfl

namespace Runs

theorem value : m.Runs l V s (.value sp v) s v := ⟨.value s sp v, bigValue_value sp v⟩

theorem access {kind : AccessKind} (h : (s.access kind p).result = .ok (s', v))
    (hs : s'.store.Sound (v :: V)) : m.Runs l V s (.access sp kind p) s' v where
  small := evaluates_rule rfl (by rw [smallStep, offer_none]; exact reduct_of_ok h) hs
  big := by rw [bigValue_access, h]

theorem borrow {mutable : Bool} (h : (s.borrow p).result = .ok v)
    (hs : s.store.Sound (v :: V)) : m.Runs l V s (.borrow sp mutable p) s v where
  small := evaluates_rule rfl (by rw [smallStep, offer_none, Traced.result_bind, h]; rfl) hs
  big := by rw [bigValue_borrow, h]; rfl

theorem box (h : m.Runs l V s t s₁ v) (hr : (s₁.box l v).result = .ok (s', w))
    (hs : s'.store.Sound (w :: V)) : m.Runs l V s (.box sp t) s' w where
  small := h.congr (context_box m l sp) (fun _ => .rfl) fun _ =>
    evaluates_rule rfl (by rw [smallStep, offer_none]; exact reduct_of_ok hr) hs
  big := by rw [bigValue_box, h.big, Traced.ok_bind, hr]

theorem letMut {x : String} {xs : Span} (h : m.Runs l V s t s₁ v)
    (hr : (s₁.bind x l v).result = .ok (s', w)) (hs : s'.store.Sound (w :: V)) :
    m.Runs l V s (.letMut sp x xs t) s' w where
  small := h.congr (context_letMut m l sp x xs) (fun _ => .rfl) fun _ =>
    evaluates_rule rfl (by rw [smallStep, offer_none]; exact reduct_of_ok hr) hs
  big := by rw [bigValue_letMut, h.big, Traced.ok_bind, hr]

theorem assign (h : m.Runs l V s t s₁ v) (hr : (s₁.assign p v).result = .ok (s', w))
    (hs : s'.store.Sound (w :: V)) : m.Runs l V s (.assign sp p t) s' w where
  small := h.congr (context_assign m l sp p) (fun _ => .rfl) fun _ =>
    evaluates_rule rfl (by rw [smallStep, offer_none]; exact reduct_of_ok hr) hs
  big := by rw [bigValue_assign, h.big, Traced.ok_bind, hr]

end Runs

/-! ### Blocks -/

/-- Statements run one after the other. The values between them are dropped, and the last one
stays. -/
inductive RunsAll (m : Machine) (inner : Lifetime) (V : List Value) :
    State → List Term → State → Value → Prop where
  | nil {s : State} : RunsAll m inner V s [] s .unit
  | last {s s' : State} {t : Term} {v : Value} : m.Runs inner V s t s' v →
      RunsAll m inner V s [t] s' v
  | cons {s s₁ s₂ s' : State} {t u : Term} {us : List Term} {v w : Value} :
      m.Runs inner V s t s₁ v →
      (if v = .unit then pure s₁ else s₁.discard v []).result = .ok s₂ → s₂.store.Sound V →
      RunsAll m inner V s₂ (u :: us) s' w → RunsAll m inner V s (t :: u :: us) s' w

namespace RunsAll

theorem big (h : m.RunsAll inner V s ts s' v) : (m.bigSteps s inner ts).result = .ok (s', v) := by
  induction h with
  | nil => exact bigSteps_nil
  | last h => rw [bigSteps_singleton, h.big]
  | cons h hd _ _ ih =>
    rw [bigSteps_cons, h.big, Traced.ok_bind, hd, Traced.ok_bind, ih]

omit [HashOrder] in
/-- The first statement of a block in its context. The other ones hold no reference. -/
theorem references_block (hp : ∀ u ∈ ts, u.Plain) (t : Term) :
    (((blockFrom sp inner ts t).values ++ V).flatMap Value.references).Perm
      ((t.values ++ V).flatMap Value.references) := by
  rw [List.flatMap_append, List.flatMap_append]
  refine List.Perm.append_right _ ?_
  rw [blockFrom, Term.values_block]
  split
  · rename_i ht
    rw [references_plain hp, Term.values_of_value? ht]
    exact .rfl
  · rw [List.reverse_cons, List.flatMap_append, List.flatMap_append, references_plain hp]
    simp

/-- The statements of a block by small steps, with the end of the block after them. -/
theorem small {f : NameMap Binding} (h : m.RunsAll inner V s ts s₁ v) (hp : ∀ t ∈ ts, t.Plain)
    (hf : State.popFrame s₁.frame inner = f) (hl : (s₁.leave f inner v).result = .ok (s', v))
    (hs : s'.store.Sound (v :: V)) :
    Evaluates m l (HeapSound V) s (.block sp inner ts) (.ok (s', v)) := by
  induction h with
  | nil =>
    refine evaluates_rule rfl ?_ hs
    rw [smallStep, offer_none, hf]
    exact reduct_of_ok hl
  | @last s t s₁ v h =>
    rw [← blockFrom_plain (hp _ List.mem_cons_self)]
    refine h.congr (context_block m l sp inner [])
      (references_block fun u hu => hp u (List.mem_cons_of_mem _ hu)) fun sp' => ?_
    refine evaluates_rule rfl ?_ hs
    rw [← hf] at hl
    -- a last value of unit is dropped with the statement, and the empty block gives it again
    by_cases hv : v = .unit
    · subst hv
      simp only [blockFrom, Term.value?, if_true, smallStep, offer_none]
      exact reduct_of_ok hl
    · simp only [blockFrom, Term.value?, Option.some.injEq, hv, if_false, smallStep,
        offer_none, List.isEmpty_nil, if_true]
      exact reduct_of_ok hl
  | @cons s s₁ s₂ s' t u us v w h hd hsound _ ih =>
    have hp' : ∀ t ∈ u :: us, Term.Plain t := fun t ht => hp t (List.mem_cons_of_mem _ ht)
    have rest := ih hp' hf hl hs
    rw [← blockFrom_plain (hp t List.mem_cons_self)]
    refine h.congr (context_block m l sp inner (u :: us)) (references_block hp') fun sp' => ?_
    by_cases hv : v = .unit
    · rw [if_pos hv] at hd
      cases hd
      simp only [blockFrom, Term.value?, hv, if_true]
      exact rest
    · rw [if_neg hv] at hd
      simp only [blockFrom, Term.value?, Option.some.injEq, hv, if_false]
      -- the statements to come hold no reference, so they make no difference to the drop
      have hd' : (s₁.discard v ((u :: us).flatMap Term.values)).result = .ok s₂ := by
        rw [discard_plain hp', hd]
      refine .step rfl ?_ ?_ rest
      · simp only [smallStep, offer_none, Term.value?, List.isEmpty_cons]
        rw [if_neg (by simp), Traced.result_bind, hd']
        rfl
      · refine Store.Sound.congr hsound ?_
        rw [List.flatMap_append, Term.values_block, references_plain hp']
        exact .rfl

end RunsAll

theorem Runs.block (h : m.RunsAll inner V s ts s₁ v) (hp : ∀ t ∈ ts, t.Plain)
    (hf : State.popFrame s₁.frame inner = s.frame)
    (hl : (s₁.leave s.frame inner v).result = .ok (s', v)) (hs : s'.store.Sound (v :: V)) :
    m.Runs l V s (.block sp inner ts) s' v where
  small := h.small hp hf hl hs
  big := by rw [bigValue_block, h.big, Traced.ok_bind, hl]

/-! ### Operands -/

/-- Operands run from left to right. While one of them runs, the values of those before it are
held. -/
inductive RunsOperands (m : Machine) (l : Lifetime) :
    List Value → State → List Term → State → List Value → Prop where
  | nil {V : List Value} {s : State} : RunsOperands m l V s [] s []
  | cons {V vs : List Value} {s s₁ s' : State} {t : Term} {ts : List Term} {v : Value} :
      m.Runs l V s t s₁ v → RunsOperands m l (v :: V) s₁ ts s' vs →
      RunsOperands m l V s (t :: ts) s' (v :: vs)

namespace RunsOperands

theorem big (h : m.RunsOperands l V s ts s' vs) : (m.bigStepAll s l ts).result = .ok (s', vs) := by
  induction h with
  | nil => exact bigStepAll_nil
  | cons h _ ih => rw [bigStepAll_cons, h.big, Traced.ok_bind, ih]; rfl

/-- The operands of a tuple by small steps. Those before them have the values `ws`. -/
theorem small {o : Nat} (ho : formOf? m.extensions o = some .tuple)
    (h : m.RunsOperands l V' s ts s' vs) (hp : ∀ t ∈ ts, t.Plain) {us : List Term}
    (hus : us.map Term.value? = ws.map some) (hV : V' = ws.reverse ++ V)
    (hs : s'.store.Sound (.compound (ws ++ vs) :: V)) :
    Evaluates m l (HeapSound V) s (.ext sp o (us ++ ts)) (.ok (s', .compound (ws ++ vs))) := by
  induction h generalizing us ws with
  | nil =>
    refine evaluates_rule rfl ?_ hs
    rw [List.append_nil, List.append_nil, smallStep_tupled _ l sp ho hus]
    exact reduct_of_ok rfl
  | @cons V' vs s s₁ s' t ts v h _ ih =>
    refine h.congr (context_operand m l sp ho (Term.isValue_of_operands hus) ts) (fun t => ?_)
      fun sp' => ?_
    · rw [Term.values_ext, List.reverse_append, List.reverse_cons, hV]
      simp only [List.flatMap_append, List.append_assoc]
      rw [references_plain fun u hu => hp u (List.mem_cons_of_mem _ hu), List.nil_append]
      refine List.Perm.append ?_ (List.Perm.append_right _ ?_)
      · simp
      · -- the operands before this one are the values that are held
        have h₁ : (us.reverse.flatMap Term.values).Perm ws.reverse := by
          refine ((List.reverse_perm us).flatMap_right _).trans ?_
          rw [Term.values_of_operands hus]
          exact (List.reverse_perm ws).symm
        exact h₁.flatMap_right _
    · have hus' : (us ++ [Term.value sp' v]).map Term.value? = (ws ++ [v]).map some := by
        simp [hus, Term.value?]
      have := ih (fun u hu => hp u (List.mem_cons_of_mem _ hu)) hus' (by simp [hV])
        (by simpa using hs)
      simpa using this

end RunsOperands

theorem Runs.tuple {o : Nat} (ho : formOf? m.extensions o = some .tuple)
    (h : m.RunsOperands l V s ts s' vs) (hp : ∀ t ∈ ts, t.Plain)
    (hs : s'.store.Sound (.compound vs :: V)) :
    m.Runs l V s (.ext sp o ts) s' (.compound vs) where
  small :=
    have hus : ([] : List Term).map Term.value? = ([] : List Value).map some := rfl
    h.small ho hp hus rfl hs
  big := by
    rw [bigValue_tuple sp ho, h.big, Traced.ok_bind]
    rfl

theorem Runs.conditional {o : Nat} {equal : Bool} {lhs rhs onTrue onFalse taken : Term}
    (ho : formOf? m.extensions o = some (.conditional equal))
    (hp : ∀ t ∈ [lhs, rhs, onTrue, onFalse], t.Plain)
    (hl : m.Runs l V s lhs s₁ left) (hr : m.Runs l (left :: V) s₁ rhs s₂ right)
    (ht : taken = if State.takesFirst equal left right then onTrue else onFalse)
    (hb : (s₂.branch left right taken).result = .ok s₃) (hs : s₃.store.Sound V)
    (h : m.Runs l V s₃ taken s' v) :
    m.Runs l V s (.ext sp o [lhs, rhs, onTrue, onFalse]) s' v where
  small := by
    have plain : ∀ t ∈ [onTrue, onFalse], t.Plain := fun t ht => hp t (by simp at ht ⊢; simp [ht])
    -- the left operand, then the right one with the value of the left one held
    refine hl.congr (context_lhs m l sp ho rhs onTrue onFalse) (fun t => ?_) fun sp₁ => ?_
    · have hx : ∀ u ∈ [rhs, onTrue, onFalse], u.Plain := fun u hu =>
        hp u (List.mem_cons_of_mem _ hu)
      rw [Term.values_ext, List.reverse_cons, List.flatMap_append, List.flatMap_append,
        List.flatMap_append, references_plain hx]
      simp
    refine hr.congr (context_rhs m l sp ho rfl onTrue onFalse) (fun t => ?_) fun sp₂ => ?_
    · rw [Term.values_ext, List.reverse_cons, List.reverse_cons]
      simp only [List.flatMap_append, references_plain plain]
      simp [Term.values, Term.pushValues]
    -- the step to the arm drops both values
    have hstep := smallStep_branch m s₂ l sp ho (rfl : (Term.value sp₁ left).value? = _)
      (rfl : (Term.value sp₂ right).value? = _) onTrue onFalse
    rw [← ht, hb] at hstep
    refine .step rfl hstep ?_ h.small
    have hplain : taken.Plain := by
      rw [ht]
      split
      · exact plain _ (by simp)
      · exact plain _ (by simp)
    refine Store.Sound.congr hs ?_
    rw [List.flatMap_append, hplain.references]
    exact .rfl
  big := by
    rw [bigValue_conditional sp ho, hl.big, Traced.ok_bind, hr.big, Traced.ok_bind]
    simp only [← ht]
    rw [hb, Traced.ok_bind, h.big]

end Machine

end Ownership
