import Ownership.Machine.Evaluate

/-!
# Evaluation by small steps

The run of a term is a relation, `Evaluates`: small steps lead from a state and a
term to a result, a value or a fault, and whatever is left of the term after a step
satisfies a condition `P` on the way. Runs of parts make up the run of the whole:

* `Context`: a part of a term in which the next step takes place; one lemma for each
  term former.
* `Evaluates.congr`: the run of a part is a run of the whole up to the value of the part.
* `Residue`: what a step can leave of a term. It is smaller, so an evaluation has steps enough
  (`evaluate_eq`).
-/

namespace Ownership

variable {m : Machine} {k l : Lifetime} {s s' : State} {t t' : Term} {ts : List Term} {v : Value}
variable {P Q : State → Term → Prop}

namespace Term

theorem value?_eq_some {t : Term} {v : Value} : t.value? = some v ↔ ∃ sp, t = .value sp v := by
  cases t <;> simp [value?]

@[simp] theorem value?_ofValue (v : Value) : (ofValue v).value? = some v := rfl

theorem size_pos {t : Term} (h : t.value? = none) : 0 < t.size := by
  cases t with
  | value => cases h
  | _ => simp [size]

theorem values_of_value? (h : t.value? = some v) : t.values = [v] := by
  obtain ⟨sp, rfl⟩ := value?_eq_some.1 h
  rfl

theorem values_of_operands {vs : List Value} (h : ts.map value? = vs.map some) :
    ts.flatMap values = vs := by
  induction ts generalizing vs with
  | nil =>
    cases vs with
    | nil => rfl
    | cons => cases h
  | cons t ts ih =>
    cases vs with
    | nil => cases h
    | cons v vs =>
      simp only [List.map_cons, List.cons.injEq] at h
      rw [List.flatMap_cons, values_of_value? h.1, ih h.2]
      rfl

theorem isValue_of_operands {vs : List Value} (h : ts.map value? = vs.map some) :
    ∀ t ∈ ts, t.isValue = true := by
  intro t ht
  have hm : t.value? ∈ vs.map some := h ▸ List.mem_map_of_mem ht
  obtain ⟨v, -, hv⟩ := List.mem_map.1 hm
  rw [isValue, ← hv]
  rfl

@[simp] theorem values_ofValue (v : Value) : (ofValue v).values = [v] := rfl

end Term

variable [HashOrder]

/-- **A run by small steps** of `t` from `s` under `l`, with result `r`. What each step leaves
satisfies `P`. -/
inductive Evaluates (m : Machine) (l : Lifetime) (P : State → Term → Prop) :
    State → Term → Except Fault (State × Value) → Prop where
  | value (s : State) (sp : Span) (v : Value) : Evaluates m l P s (.value sp v) (.ok (s, v))
  | fault {s : State} {t : Term} {e : Fault} : t.value? = none →
      (m.smallStep s l t).result = .error e → Evaluates m l P s t (.error e)
  | step {s s' : State} {t t' : Term} {r : Except Fault (State × Value)} : t.value? = none →
      (m.smallStep s l t).result = .ok (s', t') → P s' t' → Evaluates m l P s' t' r →
      Evaluates m l P s t r

/-! ### Contexts -/

/-- A step of `C t` under `l` is a step of `t` under `k`, in the place where `t` stands. -/
def Context (m : Machine) (k l : Lifetime) (C : Term → Term) : Prop :=
  ∀ s t, t.value? = none → (C t).value? = none ∧
    (m.smallStep s l (C t)).outcome = (m.smallStep s k t).outcome.map fun x => (x.1, C x.2)

namespace Context

variable {C : Term → Term}

theorem result (hC : Context m k l C) (s : State) (hv : t.value? = none) :
    (m.smallStep s l (C t)).result = (m.smallStep s k t).result.map fun x => (x.1, C x.2) :=
  Traced.result_of_outcome (hC s t hv).2

theorem failedIn (hC : Context m k l C) (s : State) (hv : t.value? = none) :
    (m.smallStep s l (C t)).failedIn = (m.smallStep s k t).failedIn :=
  Traced.failedIn_of_outcome (hC s t hv).2

/-- A step of the whole is one of the part. -/
theorem step_ok (hC : Context m k l C) (hv : t.value? = none)
    (h : (m.smallStep s l (C t)).result = .ok (s', t')) :
    ∃ u, (m.smallStep s k t).result = .ok (s', u) ∧ t' = C u := by
  rw [hC.result s hv, Traced.map_eq_ok] at h
  obtain ⟨⟨s₁, u⟩, h, e⟩ := h
  cases e
  exact ⟨u, h, rfl⟩

end Context

namespace Evaluates

theorem of_value (h : t.value? = some v) : Evaluates m l P s t (.ok (s, v)) := by
  obtain ⟨sp, rfl⟩ := Term.value?_eq_some.1 h
  exact .value s sp v

/-- A last step, to a value or to a fault. -/
theorem of_rule {r : Except Fault (State × Value)} (hv : t.value? = none)
    (h : (m.smallStep s l t).result = r.map fun x => (x.1, .ofValue x.2))
    (hP : ∀ s' v, r = .ok (s', v) → P s' (.ofValue v)) : Evaluates m l P s t r := by
  cases r with
  | error e => exact .fault hv h
  | ok x => exact .step hv h (hP _ _ rfl) (.value _ _ _)

/-- **The run of a part is a run of the whole**, which goes on from the value of the part. -/
theorem congr {C : Term → Term} {r : Except Fault (State × Value)}
    {F : State × Value → Except Fault (State × Value)} (hC : Context m k l C)
    (hQ : ∀ s t, Q s t → P s (C t)) (h : Evaluates m k Q s t r)
    (hF : ∀ s' v sp, r = .ok (s', v) → Evaluates m l P s' (C (.value sp v)) (F (s', v))) :
    Evaluates m l P s (C t) (r >>= F) := by
  induction h with
  | value s sp v => exact hF s v sp rfl
  | @fault s t e hv h => exact .fault (hC s t hv).1 (by rw [hC.result s hv, h]; rfl)
  | @step s s' t t' r hv h hq _ ih =>
    exact .step (hC s t hv).1 (by rw [hC.result s hv, h]; rfl) (hQ _ _ hq) (ih hF)

theorem mono (hP : ∀ s t, Q s t → P s t) {r : Except Fault (State × Value)}
    (h : Evaluates m l Q s t r) : Evaluates m l P s t r := by
  induction h with
  | value s sp v => exact .value s sp v
  | fault hv h => exact .fault hv h
  | step hv h hq _ ih => exact .step hv h (hP _ _ hq) ih

/-- The last step of a run leaves the value. -/
theorem last {x : State × Value} (h : Evaluates m l P s t (.ok x)) (hv : t.value? = none) :
    ∃ sp, P x.1 (.value sp x.2) := by
  generalize hr : Except.ok x = r at h
  induction h with
  | value => cases hv
  | fault => cases hr
  | @step s s' t t' r _ _ hp h ih =>
    -- the run goes on, unless this step was the last one
    cases hv' : t'.value? with
    | none => exact ih hv' hr
    | some v =>
      obtain ⟨sp, rfl⟩ := Term.value?_eq_some.1 hv'
      cases hr
      cases h with
      | value => exact ⟨sp, hp⟩
      | step hv => cases hv

/-- A run has one result, whatever is asked of it on the way. -/
theorem det {r r' : Except Fault (State × Value)} (h : Evaluates m l P s t r)
    (h' : Evaluates m l Q s t r') : r = r' := by
  induction h with
  | value s sp v =>
    cases h' with
    | value => rfl
    | fault hv => cases hv
    | step hv => cases hv
  | fault hv h =>
    cases h' with
    | value => cases hv
    | fault _ h' => rw [h] at h'; cases h'; rfl
    | step _ h' => rw [h] at h'; cases h'
  | step hv h _ _ ih =>
    cases h' with
    | value => cases hv
    | fault _ h' => rw [h] at h'; cases h'
    | step _ h' _ hr => rw [h] at h'; cases h'; exact ih hr

end Evaluates

namespace Machine

theorem context_box (m : Machine) (l : Lifetime) (sp : Span) : Context m l l (.box sp) := by
  intro s t hv
  refine ⟨rfl, ?_⟩
  simp only [smallStep, offer_none, hv, Traced.outcome_bind]
  cases (m.smallStep s l t).outcome <;> rfl

theorem context_letMut (m : Machine) (l : Lifetime) (sp : Span) (x : String) (xs : Span) :
    Context m l l (.letMut sp x xs) := by
  intro s t hv
  refine ⟨rfl, ?_⟩
  simp only [smallStep, offer_none, hv, Traced.outcome_bind]
  cases (m.smallStep s l t).outcome <;> rfl

theorem context_assign (m : Machine) (l : Lifetime) (sp : Span) (p : Place) :
    Context m l l (.assign sp p) := by
  intro s t hv
  refine ⟨rfl, ?_⟩
  simp only [smallStep, offer_none, hv, Traced.outcome_bind]
  cases (m.smallStep s l t).outcome <;> rfl

/-- A block with its first statement reduced to `t`. A statement that is done is cut off at once
if its value is unit. -/
def blockFrom (sp : Span) (inner : Lifetime) (ts : List Term) (t : Term) : Term :=
  .block sp inner (if t.value? = some .unit then ts else t :: ts)

theorem context_block (m : Machine) (l : Lifetime) (sp : Span) (inner : Lifetime)
    (ts : List Term) : Context m inner l (blockFrom sp inner ts) := by
  intro s t hv
  refine ⟨rfl, ?_⟩
  have hC : blockFrom sp inner ts t = .block sp inner (t :: ts) := by simp [blockFrom, hv]
  simp only [hC, smallStep, offer_none, hv, Traced.outcome_bind]
  cases (m.smallStep s inner t).outcome <;> rfl

/-! ### Terms of extensions -/

/-- **What becomes of a term of an extension**: it is a tuple or a conditional, or it is stuck. -/
inductive Use (es : List Extension) (o : Nat) : List Term → Prop where
  | tuple {ts : List Term} : formOf? es o = some .tuple → Use es o ts
  | conditional {equal : Bool} {lhs rhs onTrue onFalse : Term} :
      formOf? es o = some (.conditional equal) → Use es o [lhs, rhs, onTrue, onFalse]
  | stuck {ts : List Term} : formOf? es o ≠ some .tuple →
      (∀ equal lhs rhs onTrue onFalse,
        ¬ (formOf? es o = some (.conditional equal) ∧ ts = [lhs, rhs, onTrue, onFalse])) →
      Use es o ts

omit [HashOrder] in
theorem exists_use (es : List Extension) (o : Nat) (ts : List Term) : Use es o ts := by
  rcases hf : formOf? es o with _ | _ | equal
  · exact .stuck (by simp [hf]) (by simp [hf])
  · exact .tuple hf
  · by_cases h4 : ∃ lhs rhs onTrue onFalse, ts = [lhs, rhs, onTrue, onFalse]
    · obtain ⟨lhs, rhs, onTrue, onFalse, rfl⟩ := h4
      exact .conditional hf
    · refine .stuck (by simp [hf]) ?_
      rintro _ _ _ _ _ ⟨-, e⟩
      exact h4 ⟨_, _, _, _, e⟩

theorem smallStep_tuple (s : State) (l : Lifetime) (sp : Span) {o : Nat}
    (ho : formOf? m.extensions o = some .tuple) (ts : List Term) :
    m.smallStep s l (.ext sp o ts) = do
      match ← m.stepFirst s l ts with
      | (s, .values vs) => (s.tuple vs).reduct
      | (s, .residual ts) => return (s, .ext sp o ts) := by
  have h := m.smallStep_form s l sp o ts
  rw [ho] at h
  exact h

theorem smallStep_conditional (s : State) (l : Lifetime) (sp : Span) {o : Nat} {equal : Bool}
    (ho : formOf? m.extensions o = some (.conditional equal)) (ts : List Term) :
    m.smallStep s l (.ext sp o ts) = m.stepConditional s l sp o equal ts := by
  rw [smallStep_form, ho]

theorem smallStep_stuck (s : State) (l : Lifetime) (sp : Span) {o : Nat} {ts : List Term}
    (ht : formOf? m.extensions o ≠ some .tuple)
    (hc : ∀ equal lhs rhs onTrue onFalse,
      ¬ (formOf? m.extensions o = some (.conditional equal) ∧ ts = [lhs, rhs, onTrue, onFalse])) :
    m.smallStep s l (.ext sp o ts) = throw (.stuck (Term.ext sp o ts).text) := by
  rcases hf : formOf? m.extensions o with _ | _ | equal
  · rw [smallStep_form, hf]
  · exact absurd hf ht
  · rw [smallStep_conditional s l sp hf, stepConditional]
    exact fun lhs rhs onTrue onFalse h => hc equal lhs rhs onTrue onFalse ⟨hf, h⟩

/-! ### Operands -/

omit [HashOrder] in
/-- Operands are values all of them, or one of them is the first that is not. -/
theorem operands_cases (ts : List Term) :
    (∃ vs : List Value, ts.map Term.value? = vs.map some) ∨
      ∃ us t rest, ts = us ++ t :: rest ∧ (∀ u ∈ us, u.isValue = true) ∧ t.value? = none := by
  induction ts with
  | nil => exact .inl ⟨[], rfl⟩
  | cons t ts ih =>
    cases hv : t.value? with
    | none => exact .inr ⟨[], t, ts, rfl, nofun, hv⟩
    | some v =>
      rcases ih with ⟨vs, h⟩ | ⟨us, u, rest, rfl, hus, hu⟩
      · exact .inl ⟨v :: vs, by simp [hv, h]⟩
      · refine .inr ⟨t :: us, u, rest, rfl, fun w hw => ?_, hu⟩
        rcases List.mem_cons.1 hw with rfl | hw
        · rw [Term.isValue, hv]
          rfl
        · exact hus w hw

theorem stepFirst_values (m : Machine) (s : State) (l : Lifetime) (vs : List Value)
    {us : List Term} (h : us.map Term.value? = vs.map some) :
    m.stepFirst s l us = pure (s, .values vs) := by
  induction us generalizing vs with
  | nil =>
    cases vs with
    | nil => simp only [stepFirst]
    | cons v vs => simp at h
  | cons u us ih =>
    cases vs with
    | nil => simp at h
    | cons v vs =>
      simp only [List.map_cons, List.cons.injEq] at h
      simp only [stepFirst, h.1, ih vs h.2]
      rfl

/-- A tuple of values is put together. -/
theorem smallStep_tupled (s : State) (l : Lifetime) (sp : Span) {o : Nat} {vs : List Value}
    (ho : formOf? m.extensions o = some .tuple) (h : ts.map Term.value? = vs.map some) :
    m.smallStep s l (.ext sp o ts) = (s.tuple vs).reduct := by
  rw [smallStep_tuple s l sp ho, stepFirst_values m s l vs h]
  rfl

theorem stepFirst_append (m : Machine) (s : State) (l : Lifetime) {us : List Term}
    (hus : ∀ u ∈ us, u.isValue = true) (hv : t.value? = none) (ts : List Term) :
    (m.stepFirst s l (us ++ t :: ts)).outcome =
      (m.smallStep s l t).outcome.map fun x => (x.1, .residual (us ++ x.2 :: ts)) := by
  induction us with
  | nil =>
    simp only [List.nil_append, stepFirst, hv, Traced.outcome_bind]
    cases (m.smallStep s l t).outcome <;> rfl
  | cons u us ih =>
    obtain ⟨v, hu⟩ := Option.isSome_iff_exists.1 (hus u List.mem_cons_self)
    simp only [List.cons_append, stepFirst, hu, Traced.outcome_bind,
      ih fun w hw => hus w (List.mem_cons_of_mem _ hw)]
    cases (m.smallStep s l t).outcome <;> rfl

theorem context_operand (m : Machine) (l : Lifetime) (sp : Span) {o : Nat}
    (ho : formOf? m.extensions o = some .tuple) {us : List Term}
    (hus : ∀ u ∈ us, u.isValue = true) (ts : List Term) :
    Context m l l fun t => .ext sp o (us ++ t :: ts) := by
  intro s t hv
  refine ⟨rfl, ?_⟩
  simp only [smallStep_tuple _ _ _ ho, Traced.outcome_bind, stepFirst_append m s l hus hv]
  cases (m.smallStep s l t).outcome <;> rfl

/-- A conditional whose operands are values goes on with one of its arms. -/
theorem smallStep_branch (m : Machine) (s : State) (l : Lifetime) (sp : Span) {o : Nat}
    {equal : Bool} (ho : formOf? m.extensions o = some (.conditional equal)) {lhs rhs : Term}
    {left right : Value} (hl : lhs.value? = some left) (hr : rhs.value? = some right)
    (onTrue onFalse : Term) :
    (m.smallStep s l (.ext sp o [lhs, rhs, onTrue, onFalse])).result =
      (s.branch left right
        (if State.takesFirst equal left right then onTrue else onFalse)).result.map fun s =>
          (s, if State.takesFirst equal left right then onTrue else onFalse) := by
  rw [smallStep_conditional _ _ _ ho]
  simp only [stepConditional, hl, hr, Traced.result_bind]
  cases (s.branch left right _).result <;> rfl

theorem context_lhs (m : Machine) (l : Lifetime) (sp : Span) {o : Nat} {equal : Bool}
    (ho : formOf? m.extensions o = some (.conditional equal)) (rhs onTrue onFalse : Term) :
    Context m l l fun t => .ext sp o [t, rhs, onTrue, onFalse] := by
  intro s t hv
  refine ⟨rfl, ?_⟩
  rw [smallStep_conditional _ _ _ ho]
  simp only [stepConditional, hv, Traced.outcome_bind]
  cases (m.smallStep s l t).outcome <;> rfl

theorem context_rhs (m : Machine) (l : Lifetime) (sp : Span) {o : Nat} {equal : Bool}
    (ho : formOf? m.extensions o = some (.conditional equal)) {lhs : Term} {left : Value}
    (hl : lhs.value? = some left) (onTrue onFalse : Term) :
    Context m l l fun t => .ext sp o [lhs, t, onTrue, onFalse] := by
  intro s t hv
  refine ⟨rfl, ?_⟩
  rw [smallStep_conditional _ _ _ ho]
  simp only [stepConditional, hv, hl, Traced.outcome_bind]
  cases (m.smallStep s l t).outcome <;> rfl

/-! ### What a step leaves of a term -/

/-- **What a rule can leave of a term**: a value, a part of the term, or the term with one of its
parts reduced. -/
inductive Residue : Term → Term → Prop where
  | value {t sp v} : t.value? = none → Residue t (.value sp v)
  | box {sp c c'} : Residue c c' → Residue (.box sp c) (.box sp c')
  | letMut {sp x xs c c'} : Residue c c' → Residue (.letMut sp x xs c) (.letMut sp x xs c')
  | assign {sp p c c'} : Residue c c' → Residue (.assign sp p c) (.assign sp p c')
  /-- The first statement is reduced. -/
  | statement {sp inner t t' ts} : Residue t t' →
      Residue (.block sp inner (t :: ts)) (.block sp inner (t' :: ts))
  /-- The first statement is cut off. -/
  | rest {sp inner t ts} : Residue (.block sp inner (t :: ts)) (.block sp inner ts)
  | operand {sp o t t'} (us ts : List Term) : Residue t t' →
      Residue (.ext sp o (us ++ t :: ts)) (.ext sp o (us ++ t' :: ts))
  /-- One of the operands is all that is left. -/
  | arm {sp o t ts} : t ∈ ts → Residue (.ext sp o ts) t

omit [HashOrder] in
theorem reduct_ok {x : Run (State × Value)} {s' : State} {t' : Term} :
    x.reduct.result = .ok (s', t') ↔ ∃ v, x.result = .ok (s', v) ∧ t' = .ofValue v := by
  rw [Run.reduct, Traced.result_bind_ok]
  constructor
  · rintro ⟨⟨s, v⟩, h, e⟩
    cases e
    exact ⟨v, h, rfl⟩
  · rintro ⟨v, h, rfl⟩
    exact ⟨(s', v), h, rfl⟩

omit [HashOrder] in
theorem Residue.of_reduct {x : Run (State × Value)} (hv : t.value? = none)
    (h : x.reduct.result = .ok (s', t')) : Residue t t' := by
  obtain ⟨v, -, rfl⟩ := reduct_ok.1 h
  exact .value hv

/-- What is left of operands is as it was, up to the one that has made the step. -/
theorem stepFirst_residual {us : List Term}
    (h : (m.stepFirst s l us).result = .ok (s', .residual ts)) :
    ∃ done t t' rest, us = done ++ t :: rest ∧ ts = done ++ t' :: rest ∧ t.value? = none ∧
      (m.smallStep s l t).result = .ok (s', t') := by
  rcases operands_cases us with ⟨vs, hvs⟩ | ⟨done, t, rest, rfl, hd, hv⟩
  · rw [stepFirst_values m s l vs hvs, Traced.result_pure] at h
    cases h
  · rw [Traced.result_of_outcome (stepFirst_append m s l hd hv rest), Traced.map_eq_ok] at h
    obtain ⟨⟨s₁, t'⟩, h, e⟩ := h
    cases e
    exact ⟨done, t, t', rest, rfl, rfl, hv, h⟩

/-- **What a small step leaves of a term that is not a value.** -/
theorem smallStep_residue (t : Term) (hv : t.value? = none) {s s' : State} {t' : Term}
    (h : (m.smallStep s l t).result = .ok (s', t')) : Residue t t' := by
  induction t generalizing l s s' t' with
  | value sp v => cases hv
  | access sp kind p =>
    simp only [smallStep, offer_none] at h
    exact .of_reduct hv h
  | borrow sp mutable p =>
    simp only [smallStep, offer_none, Traced.result_bind_ok] at h
    obtain ⟨v, -, e⟩ := h
    cases e
    exact .value hv
  | box sp c ih =>
    cases hc : c.value? with
    | some v =>
      simp only [smallStep, offer_none, hc] at h
      exact .of_reduct hv h
    | none =>
      obtain ⟨c', h₁, rfl⟩ := (context_box m l sp).step_ok hc h
      exact .box (ih hc h₁)
  | letMut sp x xs c ih =>
    cases hc : c.value? with
    | some v =>
      simp only [smallStep, offer_none, hc] at h
      exact .of_reduct hv h
    | none =>
      obtain ⟨c', h₁, rfl⟩ := (context_letMut m l sp x xs).step_ok hc h
      exact .letMut (ih hc h₁)
  | assign sp p c ih =>
    cases hc : c.value? with
    | some v =>
      simp only [smallStep, offer_none, hc] at h
      exact .of_reduct hv h
    | none =>
      obtain ⟨c', h₁, rfl⟩ := (context_assign m l sp p).step_ok hc h
      exact .assign (ih hc h₁)
  | block sp inner ts ih =>
    cases ts with
    | nil =>
      simp only [smallStep, offer_none] at h
      exact .of_reduct hv h
    | cons u us =>
      simp only [smallStep, offer_none] at h
      cases hu : u.value? with
      | some v =>
        simp only [hu] at h
        split at h
        · exact .of_reduct hv h
        · obtain ⟨s₁, -, e⟩ := Traced.result_bind_ok.1 h
          cases e
          exact .rest
      | none =>
        simp only [hu, Traced.result_bind_ok] at h
        obtain ⟨⟨s₁, u'⟩, h₁, e⟩ := h
        cases e
        split
        · exact .rest
        · exact .statement (ih u List.mem_cons_self hu h₁)
  | ext sp o ts ih =>
    cases exists_use m.extensions o ts with
    | tuple hf =>
      rw [smallStep_tuple s l sp hf] at h
      obtain ⟨⟨s₁, _ | rs⟩, h₁, e⟩ := Traced.result_bind_ok.1 h
      · exact .of_reduct hv e
      · cases e
        obtain ⟨done, u, u', rest, rfl, rfl, hu, h₁⟩ := stepFirst_residual h₁
        exact .operand done rest (ih u (by simp) hu h₁)
    | @conditional equal lhs rhs onTrue onFalse hf =>
      rw [smallStep_conditional s l sp hf, stepConditional] at h
      split at h
      · obtain ⟨s₁, -, e⟩ := Traced.result_bind_ok.1 h
        cases e
        -- both operands are compared, and one of the arms is left
        refine .arm ?_
        split <;> simp
      · rename_i hr
        obtain ⟨⟨s₁, rhs'⟩, h₁, e⟩ := Traced.result_bind_ok.1 h
        cases e
        exact .operand [lhs] [onTrue, onFalse] (ih rhs (by simp) hr h₁)
      · rename_i hl
        obtain ⟨⟨s₁, lhs'⟩, h₁, e⟩ := Traced.result_bind_ok.1 h
        cases e
        exact .operand [] [rhs, onTrue, onFalse] (ih lhs (by simp) hl h₁)
    | stuck ht hc =>
      rw [smallStep_stuck s l sp ht hc] at h
      cases h

/-! ### Steps make a term smaller -/

omit [HashOrder] in
theorem totalSize_append (ts us : List Term) :
    Term.totalSize (ts ++ us) = Term.totalSize ts + Term.totalSize us := by
  induction ts with
  | nil => simp [Term.totalSize]
  | cons t ts ih =>
    simp only [List.cons_append, Term.totalSize, ih]
    omega

omit [HashOrder] in
theorem size_lt_totalSize (h : t ∈ ts) : t.size < Term.totalSize ts := by
  obtain ⟨us, rest, rfl⟩ := List.append_of_mem h
  rw [totalSize_append, Term.totalSize]
  omega

omit [HashOrder] in
theorem Residue.size_lt (h : Residue t t') : t'.size < t.size := by
  induction h with
  | value hv => exact Term.size_pos hv
  | box _ ih => exact Nat.add_lt_add_right ih 1
  | letMut _ ih => exact Nat.add_lt_add_right ih 1
  | assign _ ih => exact Nat.add_lt_add_right ih 1
  | statement _ ih =>
    simp only [Term.size, Term.totalSize]
    omega
  | rest =>
    simp only [Term.size, Term.totalSize]
    omega
  | operand us ts _ ih =>
    simp only [Term.size, totalSize_append, Term.totalSize]
    omega
  | arm ha =>
    have := size_lt_totalSize ha
    simp only [Term.size]
    omega

/-! ### Big steps -/

/-- The state and the value that one big step leads to. -/
def bigValue (m : Machine) (s : State) (l : Lifetime) (t : Term) :
    Except Fault (State × Value) :=
  (m.bigStep s l t).settled.result

omit [HashOrder] in
theorem settled_bind {α : Type} (x : Run α) (f : α → Run (State × Term)) :
    (Run.settled (x >>= f)).result = x.result >>= fun a => (f a).settled.result := by
  simp only [Run.settled, Traced.result_bind, bind_assoc]

omit [HashOrder] in
/-- What a rule makes is a value. -/
theorem settled_reduct (x : Run (State × Value)) : x.reduct.settled.result = x.result := by
  rw [Run.reduct, settled_bind]
  cases x.result <;> rfl

@[simp] theorem bigValue_value (sp : Span) (v : Value) :
    m.bigValue s l (.value sp v) = .ok (s, v) := by
  simp only [bigValue, bigStep, offer_none]; rfl

theorem bigValue_access (sp : Span) (k : AccessKind) (p : Place) :
    m.bigValue s l (.access sp k p) = (s.access k p).result := by
  simp only [bigValue, bigStep, offer_none, settled_reduct]

theorem bigValue_borrow (sp : Span) (mutable : Bool) (p : Place) :
    m.bigValue s l (.borrow sp mutable p) = (s.borrow p).result.map fun v => (s, v) := by
  simp only [bigValue, bigStep, offer_none, settled_bind]
  cases (s.borrow p).result <;> rfl

theorem bigValue_box (sp : Span) (t : Term) :
    m.bigValue s l (.box sp t) = m.bigValue s l t >>= fun x => (x.1.box l x.2).result := by
  simp only [bigValue, bigStep, offer_none, settled_bind, settled_reduct]

theorem bigValue_letMut (sp : Span) (x : String) (xs : Span) (t : Term) :
    m.bigValue s l (.letMut sp x xs t) =
      m.bigValue s l t >>= fun y => (y.1.bind x l y.2).result := by
  simp only [bigValue, bigStep, offer_none, settled_bind, settled_reduct]

theorem bigValue_assign (sp : Span) (p : Place) (t : Term) :
    m.bigValue s l (.assign sp p t) =
      m.bigValue s l t >>= fun x => (x.1.assign p x.2).result := by
  simp only [bigValue, bigStep, offer_none, settled_bind, settled_reduct]

theorem bigValue_block (sp : Span) (inner : Lifetime) (ts : List Term) :
    m.bigValue s l (.block sp inner ts) =
      (m.bigSteps s inner ts).result >>= fun x => (x.1.leave s.frame inner x.2).result := by
  simp only [bigValue, bigStep, offer_none, settled_bind, settled_reduct]

theorem bigStep_tuple (s : State) (l : Lifetime) (sp : Span) {o : Nat}
    (ho : formOf? m.extensions o = some .tuple) (ts : List Term) :
    m.bigStep s l (.ext sp o ts) =
      m.bigStepAll s l ts >>= fun x => (x.1.tuple x.2).reduct := by
  rw [bigStep_form, ho]

theorem bigValue_tuple (sp : Span) {o : Nat} (ho : formOf? m.extensions o = some .tuple)
    (ts : List Term) : m.bigValue s l (.ext sp o ts) =
      (m.bigStepAll s l ts).result >>= fun x => (x.1.tuple x.2).result := by
  simp only [bigValue, bigStep_tuple s l sp ho, settled_bind, settled_reduct]

theorem bigStep_conditional (s : State) (l : Lifetime) (sp : Span) {o : Nat} {equal : Bool}
    (ho : formOf? m.extensions o = some (.conditional equal)) (ts : List Term) :
    m.bigStep s l (.ext sp o ts) = m.bigConditional s l sp o equal ts := by
  rw [bigStep_form, ho]

/-- The arm that a conditional takes. -/
theorem bigValue_conditional (sp : Span) {o : Nat} {equal : Bool}
    (ho : formOf? m.extensions o = some (.conditional equal)) (lhs rhs onTrue onFalse : Term) :
    m.bigValue s l (.ext sp o [lhs, rhs, onTrue, onFalse]) =
      m.bigValue s l lhs >>= fun x => m.bigValue x.1 l rhs >>= fun y =>
        (y.1.branch x.2 y.2
          (if State.takesFirst equal x.2 y.2 then onTrue else onFalse)).result >>= fun s =>
          m.bigValue s l (if State.takesFirst equal x.2 y.2 then onTrue else onFalse) := by
  rw [bigValue, bigStep_conditional s l sp ho, bigConditional]
  simp only [settled_bind]
  refine bind_congr fun x => bind_congr fun y => ?_
  split <;> exact settled_bind _ _

theorem bigStep_stuck (s : State) (l : Lifetime) (sp : Span) {o : Nat} {ts : List Term}
    (ht : formOf? m.extensions o ≠ some .tuple)
    (hc : ∀ equal lhs rhs onTrue onFalse,
      ¬ (formOf? m.extensions o = some (.conditional equal) ∧ ts = [lhs, rhs, onTrue, onFalse])) :
    m.bigStep s l (.ext sp o ts) = throw (.stuck (Term.ext sp o ts).text) := by
  rcases hf : formOf? m.extensions o with _ | _ | equal
  · rw [bigStep_form, hf]
  · exact absurd hf ht
  · rw [bigStep_conditional s l sp hf, bigConditional]
    exact fun lhs rhs onTrue onFalse h => hc equal lhs rhs onTrue onFalse ⟨hf, h⟩

theorem bigValue_stuck (sp : Span) {o : Nat} {ts : List Term}
    (ht : formOf? m.extensions o ≠ some .tuple)
    (hc : ∀ equal lhs rhs onTrue onFalse,
      ¬ (formOf? m.extensions o = some (.conditional equal) ∧ ts = [lhs, rhs, onTrue, onFalse])) :
    m.bigValue s l (.ext sp o ts) = .error (.stuck (Term.ext sp o ts).text) := by
  rw [bigValue, bigStep_stuck s l sp ht hc]
  rfl

theorem bigSteps_nil : (m.bigSteps s l []).result = .ok (s, .unit) := by
  simp only [bigSteps]; rfl

theorem bigSteps_singleton (t : Term) : (m.bigSteps s l [t]).result = m.bigValue s l t := by
  simp only [bigSteps, bigValue]

theorem bigSteps_cons (t u : Term) (ts : List Term) :
    (m.bigSteps s l (t :: u :: ts)).result =
      m.bigValue s l t >>= fun x =>
        (if x.2 = .unit then pure x.1 else x.1.discard x.2 []).result >>= fun s =>
          (m.bigSteps s l (u :: ts)).result := by
  rw [bigSteps, bigValue]
  · simp only [Traced.result_bind]
    refine bind_congr fun x => ?_
    split <;> exact Traced.result_bind _ _
  · simp

theorem bigStepAll_nil : (m.bigStepAll s l []).result = .ok (s, []) := by
  simp only [bigStepAll]; rfl

theorem bigStepAll_cons (t : Term) (ts : List Term) :
    (m.bigStepAll s l (t :: ts)).result =
      m.bigValue s l t >>= fun x =>
        (m.bigStepAll x.1 l ts).result.map fun y => (y.1, x.2 :: y.2) := by
  simp only [bigStepAll, bigValue, Traced.result_bind]
  refine bind_congr fun x => ?_
  cases (m.bigStepAll x.1 l ts).result <;> rfl

/-- **A big step leaves a value.** -/
theorem bigStep_isValue (t : Term) (h : (m.bigStep s l t).result = .ok (s', t')) :
    t'.isValue = true := by
  have of_reduct : ∀ {x : Run (State × Value)}, x.reduct.result = .ok (s', t') →
      t'.isValue = true := by
    intro x h
    obtain ⟨v, -, rfl⟩ := reduct_ok.1 h
    rfl
  induction t generalizing s l with
  | value sp v =>
    simp only [bigStep, offer_none] at h
    cases h
    rfl
  | access sp k p =>
    simp only [bigStep, offer_none] at h
    exact of_reduct h
  | borrow sp mutable p =>
    simp only [bigStep, offer_none] at h
    obtain ⟨v, -, e⟩ := Traced.result_bind_ok.1 h
    cases e
    rfl
  | box sp t ih =>
    simp only [bigStep, offer_none] at h
    obtain ⟨x, -, h⟩ := Traced.result_bind_ok.1 h
    exact of_reduct h
  | letMut sp x xs t ih =>
    simp only [bigStep, offer_none] at h
    obtain ⟨x, -, h⟩ := Traced.result_bind_ok.1 h
    exact of_reduct h
  | assign sp p t ih =>
    simp only [bigStep, offer_none] at h
    obtain ⟨x, -, h⟩ := Traced.result_bind_ok.1 h
    exact of_reduct h
  | block sp inner ts ih =>
    simp only [bigStep, offer_none] at h
    obtain ⟨x, -, h⟩ := Traced.result_bind_ok.1 h
    exact of_reduct h
  | ext sp o ts ih =>
    cases exists_use m.extensions o ts with
    | tuple hf =>
      rw [bigStep_tuple s l sp hf] at h
      obtain ⟨x, -, h⟩ := Traced.result_bind_ok.1 h
      exact of_reduct h
    | @conditional equal lhs rhs onTrue onFalse hf =>
      rw [bigStep_conditional s l sp hf, bigConditional] at h
      obtain ⟨⟨s₁, left⟩, -, h⟩ := Traced.result_bind_ok.1 h
      obtain ⟨⟨s₂, right⟩, -, h⟩ := Traced.result_bind_ok.1 h
      -- the step ends with the one of the arm
      simp only at h
      split at h
      · obtain ⟨s₃, -, h⟩ := Traced.result_bind_ok.1 h
        exact ih onTrue (by simp) h
      · obtain ⟨s₃, -, h⟩ := Traced.result_bind_ok.1 h
        exact ih onFalse (by simp) h
    | stuck ht hc =>
      rw [bigStep_stuck s l sp ht hc] at h
      cases h

/-- A big step fails, or it leaves its value. -/
theorem bigStep_cases (m : Machine) (s : State) (l : Lifetime) (t : Term) :
    (∃ e, (m.bigStep s l t).result = .error e ∧ m.bigValue s l t = .error e) ∨
      ∃ s' sp v, (m.bigStep s l t).result = .ok (s', .value sp v) ∧
        m.bigValue s l t = .ok (s', v) := by
  rw [bigValue, Run.settled, Traced.result_bind]
  cases h : (m.bigStep s l t).result with
  | error e => exact .inl ⟨e, rfl, rfl⟩
  | ok x =>
    obtain ⟨v, hv⟩ := Option.isSome_iff_exists.1 (bigStep_isValue t h)
    obtain ⟨s', t'⟩ := x
    obtain ⟨sp, rfl⟩ := Term.value?_eq_some.1 hv
    exact .inr ⟨s', sp, v, rfl, rfl⟩

/-! ### Steps of either strategy -/

theorem reduce_bigStep (hm : m.strategy = .bigStep)
    (h : (m.reduce s l t).result = .ok (s', t')) : t'.isValue = true := by
  simp only [reduce, hm] at h
  exact bigStep_isValue t h

/-- What a step of either strategy leaves. -/
theorem reduce_residue (hv : t.value? = none) (h : (m.reduce s l t).result = .ok (s', t')) :
    Residue t t' := by
  cases hm : m.strategy with
  | bigStep =>
    obtain ⟨v, hv'⟩ := Option.isSome_iff_exists.1 (reduce_bigStep hm h)
    obtain ⟨sp, rfl⟩ := Term.value?_eq_some.1 hv'
    exact .value hv
  | smallStep =>
    simp only [reduce, hm] at h
    exact smallStep_residue t hv h

/-- **Every step on a term that is not a value makes it smaller.** -/
theorem reduce_size (hv : t.value? = none) (h : (m.reduce s l t).result = .ok (s', t')) :
    t'.size < t.size :=
  (reduce_residue hv h).size_lt

/-! ### Runs and `evaluate` -/

/-- The heap passes the check of an evaluation, if the machine makes one. -/
def Checked (m : Machine) (s : State) (t : Term) : Prop :=
  m.checkInvariants = true → s.store.checkHeap t.values = .ok ()

theorem checkedStep_result (m : Machine) (s : State) (l : Lifetime) (t : Term) (n : Nat) :
    (m.checkedStep s l t n).result = (m.reduce s l t).result >>= fun x =>
      if m.checkInvariants then (x.1.store.checkHeap x.2.values).map fun _ => x else .ok x := by
  unfold checkedStep
  simp only [Traced.result_bind, Traced.result_noteFailure]
  refine congrArg _ (funext fun x => ?_)
  split
  · simp only [Traced.result_bind, Traced.result_noteFailure, Traced.result_lift]
    cases x.1.store.checkHeap x.2.values <;> rfl
  · rfl

theorem checkedStep_ok {n : Nat} :
    (m.checkedStep s l t n).result = .ok (s', t') ↔
      (m.reduce s l t).result = .ok (s', t') ∧ m.Checked s' t' := by
  rw [checkedStep_result, Traced.bind_eq_ok]
  constructor
  · rintro ⟨x, hx, h⟩
    split at h
    · obtain ⟨_, hc, rfl⟩ := Traced.map_eq_ok.1 h
      exact ⟨hx, fun _ => hc⟩
    · rename_i hm
      cases h
      exact ⟨hx, fun h => absurd h hm⟩
  · rintro ⟨hx, hc⟩
    refine ⟨_, hx, ?_⟩
    split
    · rename_i hm
      rw [hc hm]; rfl
    · rfl

theorem checkedStep_error {n : Nat} {e : Fault} (h : (m.reduce s l t).result = .error e) :
    (m.checkedStep s l t n).result = .error e := by
  rw [checkedStep_result, h]; rfl

theorem evaluateFrom_value {n i : Nat} (h : t.value? = some v) :
    (m.evaluateFrom l n i s t).result = .ok (s, v) := by
  unfold evaluateFrom
  simp only [h, Traced.result_bind]
  rfl

theorem evaluate_value (h : t.value? = some v) : (m.evaluate s l t).result = .ok (s, v) :=
  evaluateFrom_value h

theorem evaluateFrom_succ {n i : Nat} (h : t.value? = none) :
    (m.evaluateFrom l (n + 1) i s t).result = (m.checkedStep s l t i).result >>= fun x =>
      (m.evaluateFrom l n (i + 1) x.1 x.2).result := by
  conv => lhs; unfold evaluateFrom
  simp only [h, Traced.result_bind]

/-- **`evaluate` gives the result of the run**, if the machine takes small steps. -/
theorem evaluateFrom_eq (hm : m.strategy = .smallStep) {r : Except Fault (State × Value)}
    (h : Evaluates m l m.Checked s t r) :
    ∀ {n : Nat} (i : Nat), t.size ≤ n → (m.evaluateFrom l n i s t).result = r := by
  have hred : ∀ s t, (m.reduce s l t).result = (m.smallStep s l t).result := by
    intro s t
    simp only [reduce, hm]
  induction h with
  | value s sp v => intro n i _; exact evaluateFrom_value rfl
  | @fault s t e hv h =>
    intro n i hn
    -- a step is left for a term that is not a value
    have := Term.size_pos hv
    obtain ⟨n, rfl⟩ : ∃ k, n = k + 1 := ⟨n - 1, by omega⟩
    rw [evaluateFrom_succ hv, checkedStep_error ((hred s t).trans h)]
    rfl
  | @step s s' t t' r hv h hc _ ih =>
    intro n i hn
    -- the rest of the term needs fewer steps
    have hlt := (smallStep_residue t hv h).size_lt
    obtain ⟨n, rfl⟩ : ∃ k, n = k + 1 := ⟨n - 1, by omega⟩
    rw [evaluateFrom_succ hv, checkedStep_ok.2 ⟨(hred s t).trans h, hc⟩]
    exact ih (i + 1) (by omega)

theorem evaluate_eq (hm : m.strategy = .smallStep) {r : Except Fault (State × Value)}
    (h : Evaluates m l m.Checked s t r) : (m.evaluate s l t).result = r :=
  evaluateFrom_eq hm h 0 (Nat.le_refl _)

/-- An evaluation by small steps that succeeds is a run. -/
theorem evaluates_of_evaluateFrom (hm : m.strategy = .smallStep) {x : State × Value} :
    ∀ {n i : Nat} {s : State} {t : Term}, (m.evaluateFrom l n i s t).result = .ok x →
      Evaluates m l m.Checked s t (.ok x) := by
  intro n
  induction n with
  | zero =>
    intro i s t h
    cases hv : t.value? with
    | some v => rw [evaluateFrom_value hv] at h; cases h; exact .of_value hv
    | none => simp [evaluateFrom, hv] at h
  | succ n ih =>
    intro i s t h
    cases hv : t.value? with
    | some v => rw [evaluateFrom_value hv] at h; cases h; exact .of_value hv
    | none =>
      rw [evaluateFrom_succ hv, Traced.bind_eq_ok] at h
      obtain ⟨⟨s', t'⟩, hs, h⟩ := h
      obtain ⟨hr, hc⟩ := checkedStep_ok.1 hs
      simp only [reduce, hm] at hr
      exact .step hv hr hc (ih h)

/-! ### Evaluations by big steps -/

theorem eval_value {n : Nat} (h : t.value? = some v) : m.eval l n s t = pure (s, v) := by
  unfold eval
  simp only [h]

theorem eval_succ {n : Nat} (h : t.value? = none) : (m.eval l (n + 1) s t).result =
    (m.reduce s l t).result >>= fun x => (m.eval l n x.1 x.2).result := by
  conv => lhs; unfold eval
  simp only [h, Traced.result_bind]

/-- **One round is enough to evaluate a part of a big step**, and more rounds change nothing. -/
theorem eval_bigStep (hm : m.strategy = .bigStep) (s : State) (l : Lifetime) (t : Term) (n : Nat) :
    m.eval l (n + 1) s t = (m.bigStep s l t).settled := by
  cases hv : t.value? with
  | some v =>
    obtain ⟨sp, rfl⟩ := Term.value?_eq_some.1 hv
    rw [eval_value hv, bigStep, offer_none]
    rfl
  | none =>
    conv => lhs; unfold eval
    simp only [hv, reduce, hm]
    refine Traced.bind_congr_result fun x hx => ?_
    obtain ⟨s', t'⟩ := x
    obtain ⟨v, hv'⟩ := Option.isSome_iff_exists.1 (bigStep_isValue t hx)
    rw [eval_value hv']
    simp only [hv']

/-- A big-step evaluation is one big step and the check after it. -/
theorem evaluate_bigStep (hm : m.strategy = .bigStep) (hv : t.value? = none) :
    (m.evaluate s l t).result = m.bigValue s l t >>= fun x =>
      if m.checkInvariants then (x.1.store.checkHeap [x.2]).map fun _ => x else .ok x := by
  have := Term.size_pos hv
  obtain ⟨n, hn⟩ : ∃ n, t.size = n + 1 := ⟨t.size - 1, by omega⟩
  have hred : (m.reduce s l t).result = (m.bigStep s l t).result := by simp only [reduce, hm]
  rw [evaluate, hn, evaluateFrom_succ hv, checkedStep_result, hred]
  -- the first step gives the value already
  rcases m.bigStep_cases s l t with ⟨e, h, hb⟩ | ⟨s', sp, v, h, hb⟩
  · rw [h, hb]
    rfl
  · rw [h, hb]
    simp only [Traced.ok_bind]
    split
    · show ((s'.store.checkHeap [v]).map _ >>= _) = _
      cases s'.store.checkHeap [v] with
      | error e => rfl
      | ok u => exact evaluateFrom_value rfl
    · exact evaluateFrom_value rfl

end Machine

end Ownership
