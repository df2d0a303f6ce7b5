import Ownership.Proofs.Changes
import Ownership.Proofs.Evaluation
import Ownership.Term.Parts

/-!
# Reductions keep what the rules keep

What no change of a store breaks holds after a reduction if it held before, with the references in
the term counted as held, and the reduction fails with the faults of the law only.

* `Law.bigValue`: big steps. The law may know which blocks are open.
* `Law.smallStep`: small steps, which may be taken in the middle of blocks, so the law must not ask.
* `Law.reduce`, `Law.evaluateFrom`: both strategies.
-/

namespace Ownership

namespace Term

/-- The references in the values of a term. -/
def references (t : Term) : List Reference := t.values.flatMap Value.references

theorem mem_references_block {r : Reference} {sp : Span} {inner : Lifetime} {ts : List Term} :
    r ∈ (block sp inner ts).references ↔ r ∈ ts.flatMap references := by
  simp only [references, values_block, List.mem_flatMap, List.mem_reverse]
  grind

theorem mem_references_ext {r : Reference} {sp : Span} {o : Nat} {ts : List Term} :
    r ∈ (ext sp o ts).references ↔ r ∈ ts.flatMap references := by
  rw [← mem_references_block, references, values_ext, ← values_block sp (.root 0), references]

theorem references_of_value? {t : Term} {v : Value} (h : t.value? = some v) :
    t.references = v.references := by
  rw [references, values_of_value? h, List.flatMap_singleton]

end Term

variable [HashOrder] {m : Machine} {E : Fault → Prop} {L : Lifetime → Prop} {I : Invariant}
variable {k l inner : Lifetime} {ks : List Lifetime} {rs qs : List Reference} {s : State}
variable {t : Term} {ts : List Term}

namespace Law

/-! ### Big steps -/

/-- The big step on `t` keeps the invariant, and gives a value that may be held. -/
def KeptBig (m : Machine) (E : Fault → Prop) (L : Lifetime → Prop) (I : Invariant) (t : Term) :
    Prop :=
  ∀ {l ks s rs}, (∀ k ∈ t.lifetimes, L k) → Held I (l :: ks) s (t.references ++ rs) →
    Outcome E (fun x => Held I (l :: ks) x.1 (x.2.references ++ rs)) (m.bigValue s l t)

theorem bigSteps (H : Law E L I) (ih : ∀ t ∈ ts, KeptBig m E L I t)
    (hL : ∀ t ∈ ts, ∀ k ∈ t.lifetimes, L k)
    (h : Held I (l :: ks) s (ts.flatMap Term.references ++ rs)) :
    Outcome E (fun x => Held I (l :: ks) x.1 (x.2.references ++ rs))
      (m.bigSteps s l ts).result := by
  induction ts generalizing s with
  | nil =>
    rw [Machine.bigSteps_nil]
    exact h
  | cons t ts ihs =>
    obtain ⟨hLt, hL⟩ := List.forall_mem_cons.1 hL
    rw [List.flatMap_cons, List.append_assoc] at h
    have ht := ih t List.mem_cons_self hLt h
    cases ts with
    | nil =>
      rw [Machine.bigSteps_singleton]
      exact ht
    | cons u us =>
      rw [Machine.bigSteps_cons]
      refine ht.bind fun x hx => ?_
      have hd : Outcome E (fun s' => Held I (l :: ks) s' ((u :: us).flatMap Term.references ++ rs))
          (if x.2 = .unit then pure x.1 else x.1.discard x.2 []).result := by
        split
        · exact H.heldMono hx (by grind)
        · exact H.discard hx (List.nil_subset _)
      exact hd.bind fun s' hs => ihs (fun w hw => ih w (List.mem_cons_of_mem _ hw)) hL hs

theorem bigStepAll (H : Law E L I) (ih : ∀ t ∈ ts, KeptBig m E L I t)
    (hL : ∀ t ∈ ts, ∀ k ∈ t.lifetimes, L k)
    (h : Held I (l :: ks) s (ts.flatMap Term.references ++ rs)) :
    Outcome E (fun x => Held I (l :: ks) x.1 (x.2.flatMap Value.references ++ rs))
      (m.bigStepAll s l ts).result := by
  induction ts generalizing s rs with
  | nil =>
    rw [Machine.bigStepAll_nil]
    exact h
  | cons t ts ihs =>
    obtain ⟨hLt, hL⟩ := List.forall_mem_cons.1 hL
    rw [List.flatMap_cons, List.append_assoc] at h
    rw [Machine.bigStepAll_cons]
    refine (ih t List.mem_cons_self hLt h).bind fun x hx => ?_
    -- this value is held while the others are found
    have hx : Held I (l :: ks) x.1 (ts.flatMap Term.references ++ (x.2.references ++ rs)) :=
      H.heldMono hx (by grind)
    refine (ihs (fun w hw => ih w (List.mem_cons_of_mem _ hw)) hL hx).map fun y hy => ?_
    exact H.heldMono hy (by grind)

theorem bigConditional (H : Law E L I) {sp : Span} {o : Nat} {equal : Bool}
    {lhs rhs onTrue onFalse : Term} (hf : formOf? m.extensions o = some (.conditional equal))
    (ih : ∀ t ∈ [lhs, rhs, onTrue, onFalse], KeptBig m E L I t) :
    KeptBig m E L I (.ext sp o [lhs, rhs, onTrue, onFalse]) := by
  intro l ks s rs hL h
  have hL : ∀ t ∈ [lhs, rhs, onTrue, onFalse], ∀ k ∈ t.lifetimes, L k := fun t ht k hk =>
    hL k (Term.mem_allLifetimes.2 ⟨t, ht, hk⟩)
  have h : Held I (l :: ks) s (lhs.references ++ (rhs.references ++
      (onTrue.references ++ onFalse.references ++ rs))) :=
    H.heldMono h (by grind [Term.mem_references_ext])
  rw [Machine.bigValue_conditional sp hf]
  refine (ih lhs (by simp) (hL lhs (by simp)) h).bind fun x hx => ?_
  have hx : Held I (l :: ks) x.1 (rhs.references ++ (x.2.references ++
      (onTrue.references ++ onFalse.references ++ rs))) :=
    H.heldMono hx (by grind)
  refine (ih rhs (by simp) (hL rhs (by simp)) hx).bind fun y hy => ?_
  have hy : Held I (l :: ks) y.1 (x.2.references ++ (y.2.references ++
      (onTrue.references ++ onFalse.references ++ rs))) :=
    H.heldMono hy (by grind)
  refine (H.branch hy _).bind fun s' hs => ?_
  refine ih _ (by split <;> simp) (hL _ (by split <;> simp)) (H.heldMono hs ?_)
  split <;> grind

/-- **A big step keeps what no change of the store breaks.** -/
theorem bigValue (H : Law E L I) (t : Term) : KeptBig m E L I t := by
  induction t with
  | value sp v =>
    intro l ks s rs _ h
    rw [Machine.bigValue_value]
    rwa [Term.references_of_value? rfl] at h
  | access sp kind p =>
    intro l ks s rs _ h
    rw [Machine.bigValue_access]
    exact H.access h kind p
  | borrow sp mutable p =>
    intro l ks s rs _ h
    rw [Machine.bigValue_borrow]
    exact (H.borrowPlace h p).map fun v hv => hv
  | box sp t ih =>
    intro l ks s rs hL h
    rw [Machine.bigValue_box]
    exact (ih hL h).bind fun x hx => H.boxed hx l
  | letMut sp x xs t ih =>
    intro l ks s rs hL h
    rw [Machine.bigValue_letMut]
    exact (ih hL h).bind fun y hy => H.bind hy x
  | assign sp p t ih =>
    intro l ks s rs hL h
    rw [Machine.bigValue_assign]
    exact (ih hL h).bind fun x hx => H.assign hx p
  | block sp inner ts ih =>
    intro l ks s rs hL h
    have hk : L inner := hL inner List.mem_cons_self
    have hL : ∀ t ∈ ts, ∀ k ∈ t.lifetimes, L k := fun t ht k hk =>
      hL k (List.mem_cons_of_mem _ (Term.mem_allLifetimes.2 ⟨t, ht, hk⟩))
    rw [Machine.bigValue_block]
    -- the locations of the frame that the block is left for stay held inside
    have hin : Held I (inner :: l :: ks) s (ts.flatMap Term.references ++ (s.bound ++ rs)) :=
      H.enter hk (H.mono h (by grind [Term.mem_references_block]))
    refine (H.bigSteps (fun t ht => ih t ht) hL hin).bind fun x hx => ?_
    refine (H.leaveBlock hk (fun st => ?_) hx).mono fun y hy => H.heldMono hy (by grind)
    grind [State.bound]
  | ext sp o ts ih =>
    cases Machine.exists_use m.extensions o ts with
    | tuple hf =>
      intro l ks s rs hL h
      have hL : ∀ t ∈ ts, ∀ k ∈ t.lifetimes, L k := fun t ht k hk =>
        hL k (Term.mem_allLifetimes.2 ⟨t, ht, hk⟩)
      have h : Held I (l :: ks) s (ts.flatMap Term.references ++ rs) :=
        H.heldMono h (by grind [Term.mem_references_ext])
      rw [Machine.bigValue_tuple sp hf]
      refine (H.bigStepAll (fun t ht => ih t ht) hL h).bind fun x hx => ?_
      rw [← Value.references_compound] at hx
      exact hx
    | conditional hf => exact H.bigConditional hf fun t ht => ih t ht
    | stuck ht hc =>
      intro l ks s rs _ _
      rw [Machine.bigValue_stuck sp ht hc]
      exact H.fault trivial

/-! ### Small steps -/

section

variable {J : Store → List Reference → Prop} {v : Value}

/-- The small step on `t` keeps the invariant, with the references in what is left of the term. -/
def KeptSmall (m : Machine) (E : Fault → Prop) (J : Store → List Reference → Prop) (t : Term) :
    Prop :=
  ∀ {l s rs}, Held (fun _ => J) [] s (t.references ++ rs) →
    Outcome E (fun x => Held (fun _ => J) [] x.1 (x.2.references ++ rs)) (m.smallStep s l t).result

/-- A step in a context, which holds the references `qs` besides those of the part. -/
theorem inContext (H : Law E (fun _ => True) fun _ => J) {C : Term → Term} (hC : Context m k l C)
    (qs : List Reference) (hq : ∀ u, (C u).references ⊆ u.references ++ qs)
    (hq' : t.references ++ qs ⊆ (C t).references) (hv : t.value? = none) (ih : KeptSmall m E J t)
    (h : Held (fun _ => J) [] s ((C t).references ++ rs)) :
    Outcome E (fun x => Held (fun _ => J) [] x.1 (x.2.references ++ rs))
      (m.smallStep s l (C t)).result := by
  have h : Held (fun _ => J) [] s (t.references ++ (qs ++ rs)) := H.heldMono h (by grind)
  rw [hC.result s hv]
  refine (ih h).map fun x hx => H.heldMono hx ?_
  have := hq x.2
  grind

/-- A step in the only part of a term. -/
theorem inPart (H : Law E (fun _ => True) fun _ => J) {C : Term → Term} (hC : Context m k l C)
    (hq : ∀ u, (C u).references = u.references) (hv : t.value? = none) (ih : KeptSmall m E J t)
    (h : Held (fun _ => J) [] s ((C t).references ++ rs)) :
    Outcome E (fun x => Held (fun _ => J) [] x.1 (x.2.references ++ rs))
      (m.smallStep s l (C t)).result :=
  H.inContext hC [] (fun u => by simp [hq u]) (by simp [hq t]) hv ih h

/-- A step in one of the operands. -/
theorem inOperand (H : Law E (fun _ => True) fun _ => J) {sp : Span} {o : Nat} (us : List Term)
    {rest : List Term} (hC : Context m l l fun t => .ext sp o (us ++ t :: rest))
    (hv : t.value? = none) (ih : KeptSmall m E J t)
    (h : Held (fun _ => J) [] s ((Term.ext sp o (us ++ t :: rest)).references ++ rs)) :
    Outcome E (fun x => Held (fun _ => J) [] x.1 (x.2.references ++ rs))
      (m.smallStep s l (.ext sp o (us ++ t :: rest))).result :=
  H.inContext hC (us.flatMap Term.references ++ rest.flatMap Term.references)
    (fun u => by grind [Term.mem_references_ext]) (by grind [Term.mem_references_ext]) hv ih h

omit [HashOrder] in
/-- A rule has made a value. -/
theorem reduct {x : Run (State × Value)}
    (h : Outcome E (fun y => Held (fun _ => J) [] y.1 (y.2.references ++ rs)) x.result) :
    Outcome E (fun y => Held (fun _ => J) [] y.1 (y.2.references ++ rs)) x.reduct.result := by
  rw [Run.reduct, Traced.result_bind]
  refine h.bind fun y hy => ?_
  rw [← Term.references_of_value? (Term.value?_ofValue y.2)] at hy
  exact hy

theorem smallBlock (H : Law E (fun _ => True) fun _ => J) {sp : Span}
    (ih : ∀ t ∈ ts, KeptSmall m E J t) : KeptSmall m E J (.block sp inner ts) := by
  intro l s rs h
  have left : ∀ {v : Value}, Held (fun _ => J) [] s (v.references ++ rs) →
      Outcome E (fun x => Held (fun _ => J) [] x.1 (x.2.references ++ rs))
        (s.leave (State.popFrame s.frame inner) inner v).reduct.result := fun {v} hv =>
    reduct (H.leaveBlock trivial
      (fun st => List.subset_append_of_subset_left _ (s.bound_popFrame st inner)) hv)
  cases ts with
  | nil =>
    simp only [Machine.smallStep, offer_none]
    exact left (H.heldMono h (List.subset_append_right _ _))
  | cons t us =>
    cases hv : t.value? with
    | none =>
      have hC : t.references ++ us.flatMap Term.references ⊆
          (Term.block sp inner (t :: us)).references := by
        grind [Term.mem_references_block]
      have hb : Machine.blockFrom sp inner us t = .block sp inner (t :: us) := by
        rw [Machine.blockFrom, hv]
        rfl
      rw [← hb] at h hC ⊢
      refine H.inContext (Machine.context_block m l sp inner us) (us.flatMap Term.references)
        (fun u => ?_) hC hv (ih t List.mem_cons_self) h
      rw [Machine.blockFrom]
      split <;> grind [Term.mem_references_block]
    | some v =>
      have ht := Term.references_of_value? hv
      simp only [Machine.smallStep, offer_none, hv]
      split
      · exact left (H.heldMono h (by grind [Term.mem_references_block]))
      · -- the values of the statements that are left stay held
        have h : Held (fun _ => J) [] s (v.references ++ (us.flatMap Term.references ++ rs)) :=
          H.heldMono h (by grind [Term.mem_references_block])
        have hu : (us.flatMap Term.values).flatMap Value.references ⊆
            us.flatMap Term.references ++ rs := by
          rw [List.flatMap_assoc]
          exact List.subset_append_left _ _
        have hb : (Term.block sp inner us).references ++ rs ⊆ us.flatMap Term.references ++ rs := by
          grind [Term.mem_references_block]
        rw [Traced.result_bind]
        exact (H.discard h hu).bind fun s' hs => H.heldMono hs hb

theorem smallTuple (H : Law E (fun _ => True) fun _ => J) {sp : Span} {o : Nat}
    (hf : formOf? m.extensions o = some .tuple) (ih : ∀ t ∈ ts, KeptSmall m E J t) :
    KeptSmall m E J (.ext sp o ts) := by
  intro l s rs h
  rcases Machine.operands_cases ts with ⟨vs, hvs⟩ | ⟨us, t, rest, rfl, hus, hv⟩
  · have h : Held (fun _ => J) [] s ((Value.compound vs).references ++ rs) := by
      rw [Term.references, Term.values_ext] at h
      rw [Value.references_compound, ← Term.values_of_operands hvs]
      exact H.heldMono h (by grind)
    rw [Machine.smallStep_tupled s l sp hf hvs]
    exact reduct h
  · exact H.inOperand us (Machine.context_operand m l sp hf hus rest) hv (ih t (by simp)) h

theorem smallConditional (H : Law E (fun _ => True) fun _ => J) {sp : Span} {o : Nat} {equal : Bool}
    {lhs rhs onTrue onFalse : Term} (hf : formOf? m.extensions o = some (.conditional equal))
    (ih : ∀ t ∈ [lhs, rhs, onTrue, onFalse], KeptSmall m E J t) :
    KeptSmall m E J (.ext sp o [lhs, rhs, onTrue, onFalse]) := by
  intro l s rs h
  cases hl : lhs.value? with
  | none =>
    exact H.inOperand [] (Machine.context_lhs m l sp hf rhs onTrue onFalse) hl (ih lhs (by simp)) h
  | some left =>
    cases hr : rhs.value? with
    | none =>
      exact H.inOperand [lhs] (Machine.context_rhs m l sp hf hl onTrue onFalse) hr
        (ih rhs (by simp)) h
    | some right =>
      have hl' := Term.references_of_value? hl
      have hr' := Term.references_of_value? hr
      have h : Held (fun _ => J) [] s (left.references ++ (right.references ++
          (onTrue.references ++ onFalse.references ++ rs))) :=
        H.heldMono h (by grind [Term.mem_references_ext])
      rw [Machine.smallStep_branch m s l sp hf hl hr]
      refine (H.branch h _).map fun s' hs => H.heldMono hs ?_
      split <;> grind

/-- **A small step keeps what no change of the store breaks.** -/
theorem smallStep (H : Law E (fun _ => True) fun _ => J) (t : Term) : KeptSmall m E J t := by
  induction t with
  | value sp v =>
    intro l s rs h
    simp only [Machine.smallStep, offer_none]
    exact h
  | access sp kind p =>
    intro l s rs h
    simp only [Machine.smallStep, offer_none]
    exact reduct (H.access (H.heldMono h (List.subset_append_right _ _)) kind p)
  | borrow sp mutable p =>
    intro l s rs h
    simp only [Machine.smallStep, offer_none, Traced.result_bind]
    refine (H.borrowPlace h p).bind fun v hv => ?_
    rw [← Term.references_of_value? (Term.value?_ofValue v)] at hv
    exact hv
  | box sp t ih =>
    intro l s rs h
    cases hv : t.value? with
    | some v =>
      have h : Held (fun _ => J) [] s (v.references ++ rs) := Term.references_of_value? hv ▸ h
      simp only [Machine.smallStep, offer_none, hv]
      exact reduct (H.boxed h l)
    | none => exact H.inPart (Machine.context_box m l sp) (fun _ => rfl) hv ih h
  | letMut sp x xs t ih =>
    intro l s rs h
    cases hv : t.value? with
    | some v =>
      have h : Held (fun _ => J) [l] s (v.references ++ rs) := Term.references_of_value? hv ▸ h
      simp only [Machine.smallStep, offer_none, hv]
      exact reduct (H.bind h x)
    | none => exact H.inPart (Machine.context_letMut m l sp x xs) (fun _ => rfl) hv ih h
  | assign sp p t ih =>
    intro l s rs h
    cases hv : t.value? with
    | some v =>
      have h : Held (fun _ => J) [] s (v.references ++ rs) := Term.references_of_value? hv ▸ h
      simp only [Machine.smallStep, offer_none, hv]
      exact reduct (H.assign h p)
    | none => exact H.inPart (Machine.context_assign m l sp p) (fun _ => rfl) hv ih h
  | block sp inner ts ih => exact H.smallBlock ih
  | ext sp o ts ih =>
    cases Machine.exists_use m.extensions o ts with
    | tuple hf => exact H.smallTuple hf ih
    | conditional hf => exact H.smallConditional hf ih
    | stuck ht hc =>
      intro l s rs _
      rw [Machine.smallStep_stuck s l sp ht hc]
      exact H.fault trivial

/-! ### Both strategies -/

/-- **A reduction keeps what no change of the store breaks**, with either strategy. -/
theorem reduce (H : Law E (fun _ => True) fun _ => J)
    (h : Held (fun _ => J) [] s (t.references ++ rs)) :
    Outcome E (fun x => Held (fun _ => J) [] x.1 (x.2.references ++ rs))
      (m.reduce s l t).result := by
  rw [Machine.reduce]
  split
  · have hb : Outcome E (fun x => Held (fun _ => J) [l] x.1 (x.2.references ++ rs))
        (m.bigValue s l t) := H.bigValue t (fun _ _ => trivial) h
    rcases m.bigStep_cases s l t with ⟨e, hr, hv⟩ | ⟨s', sp, v, hr, hv⟩
    · rw [hr]
      exact hb.of_error hv
    · rw [hr]
      have hx := hb.of_ok hv
      rw [← Term.references_of_value? (t := .value sp v) rfl] at hx
      exact hx
  · exact H.smallStep t h

/-- **Evaluations keep it**, and their checks of the heap fail with the faults of the law only. The
steps do not run out. -/
theorem evaluateFrom (H : Law E (fun _ => True) fun _ => J) {n i : Nat} {s : State} {t : Term}
    (hn : t.size ≤ n) (h : Held (fun _ => J) [] s (t.references ++ rs)) :
    Outcome E (fun x => Held (fun _ => J) [] x.1 (x.2.references ++ rs))
      (m.evaluateFrom l n i s t).result := by
  cases hv : t.value? with
  | some v =>
    rw [Machine.evaluateFrom_value hv]
    rw [Term.references_of_value? hv] at h
    exact h
  | none =>
    have hpos := Term.size_pos hv
    obtain ⟨n, rfl⟩ : ∃ k, n = k + 1 := ⟨n - 1, by omega⟩
    rw [Machine.evaluateFrom_succ hv, Machine.checkedStep_result]
    -- what is left after the step is smaller, so the other steps are enough for it
    have hr := (H.reduce (m := m) (l := l) h).and fun x hx => Machine.reduce_size hv hx
    refine Outcome.bind (P := fun x => Held (fun _ => J) [] x.1 (x.2.references ++ rs) ∧
      x.2.size < t.size) (hr.bind fun x hx => ?_) fun x hx => H.evaluateFrom (by omega) hx.1
    split
    · exact (H.checkState hx.1 (List.subset_append_left _ _)).map fun _ _ => hx
    · exact hx

end

end Law

end Ownership
