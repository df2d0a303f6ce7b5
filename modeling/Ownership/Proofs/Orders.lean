import Ownership.Proofs.Evaluation
import Ownership.Proofs.Rules

/-!
# The order of the counts

The check after a drop goes through a hash map of counts, in an order that may be another one in
every run (`HashOrder`). If several cells are shared, the order decides which of them the fault
names, and it decides nothing else: where a run goes, whether it fails and every other fault are the
same in all orders (`Concur`).

* `Store.checkAfterDrop_concur`: the check itself.
* `Concur.bind`: runs agree if their parts do.
* `Machine.bigStep_concur`, `Machine.smallStep_concur`: one step of either strategy.
* `Machine.evaluate_concur`: **evaluations in two orders agree**, with the heap checked or not.
-/

namespace Ownership

variable {α β : Type}

/-- **The same result**, but for the shared cell that a fault names: where one run has found a cell
with several owners, the other one may have found another such cell. -/
inductive Concur : Except Fault α → Except Fault α → Prop where
  | same (r : Except Fault α) : Concur r r
  | shared {a n b k : Nat} : 1 < n → 1 < k →
      Concur (.error (.ownershipInvariant a n)) (.error (.ownershipInvariant b k))

namespace Concur

variable {r r' r'' : Except Fault α}

theorem bind {f f' : α → Except Fault β} (h : Concur r r')
    (hf : ∀ a, r = .ok a → Concur (f a) (f' a)) : Concur (r >>= f) (r' >>= f') := by
  cases h with
  | same =>
    cases r with
    | error e => exact .same _
    | ok a => exact hf a rfl
  | shared hn hk => exact .shared hn hk

theorem map {f : α → β} (h : Concur r r') : Concur (r.map f) (r'.map f) := by
  cases h with
  | same => exact .same _
  | shared hn hk => exact .shared hn hk

/-- A success is the same in both. -/
theorem ok {a : α} (h : Concur r r') (hr : r = .ok a) : r' = .ok a := by
  cases h with
  | same => exact hr
  | shared => cases hr

/-- A fault that is not about a shared cell is the same in both. -/
theorem error {e : Fault} (h : Concur r r') (hr : r = .error e)
    (he : ∀ a n, e ≠ .ownershipInvariant a n) : r' = .error e := by
  cases h with
  | same => exact hr
  | shared =>
    cases hr
    exact absurd rfl (he _ _)

end Concur

variable (o o' : HashOrder)

namespace Store

variable (st : Store) (v : Value) (vs : List Value)

theorem checkAfterDrop_concur :
    Concur (@checkAfterDrop o st vs) (@checkAfterDrop o' st vs) := by
  refine (Concur.same (st.checkReferences vs)).bind fun _ _ => ?_
  -- either order comes across every entry
  have found : ∀ p : HashOrder,
      (p.arrange (st.ownerCounts vs)).find? (fun entry => 1 < entry.2) = none ↔
        ∀ entry ∈ st.ownerCounts vs, ¬ 1 < entry.2 := by
    intro p
    simp [List.find?_eq_none, (p.perm _).mem_iff]
  cases h : (o.arrange (st.ownerCounts vs)).find? fun entry => 1 < entry.2 with
  | none =>
    rw [(found o').2 ((found o).1 h)]
    exact .same _
  | some entry =>
    cases h' : (o'.arrange (st.ownerCounts vs)).find? fun entry => 1 < entry.2 with
    | none =>
      rw [(found o).2 ((found o').1 h')] at h
      cases h
    | some entry' =>
      exact .shared (by simpa using List.find?_some h) (by simpa using List.find?_some h')

theorem dropValue_concur :
    Concur (@dropValue o st v vs).result (@dropValue o' st v vs).result := by
  rw [@dropValue_result o, @dropValue_result o']
  exact (Concur.same _).bind fun x _ => (x.1.checkAfterDrop_concur o o' vs).map

theorem dropLifetime_concur (l : Lifetime) :
    Concur (@dropLifetime o st l vs).result (@dropLifetime o' st l vs).result := by
  rw [@dropLifetime_result o, @dropLifetime_result o']
  exact (Concur.same _).bind fun x _ => (x.1.checkAfterDrop_concur o o' vs).map

end Store

namespace State

variable (s : State) (v w : Value)

theorem assign_concur (p : Place) :
    Concur (@assign o s p v).result (@assign o' s p v).result := by
  simp only [assign, Traced.result_bind]
  refine (Concur.same _).bind fun r _ => (Concur.same _).bind fun old _ =>
    (Concur.same _).bind fun _ _ => (Concur.same _).bind fun st _ => ?_
  exact (st.dropValue_concur o o' old []).bind fun _ _ => .same _

theorem branch_concur (t : Term) :
    Concur (@branch o s v w t).result (@branch o' s v w t).result := by
  simp only [branch, Traced.result_bind]
  refine (Concur.same _).bind fun _ _ => ?_
  refine (s.store.dropValue_concur o o' v [w]).bind fun st _ => ?_
  exact (st.dropValue_concur o o' w []).bind fun _ _ => .same _

theorem discard_concur (vs : List Value) :
    Concur (@discard o s v vs).result (@discard o' s v vs).result := by
  simp only [discard, Traced.result_bind]
  exact (s.store.dropValue_concur o o' v vs).bind fun _ _ => .same _

theorem leave_concur (frame : NameMap Binding) (inner : Lifetime) :
    Concur (@leave o s frame inner v).result (@leave o' s frame inner v).result := by
  simp only [leave, Traced.result_bind]
  exact (s.store.dropLifetime_concur o o' [v] inner).bind fun _ _ => .same _

end State

theorem Concur.reduct {x y : Run (State × Value)} (h : Concur x.result y.result) :
    Concur x.reduct.result y.reduct.result := by
  simp only [Run.reduct, Traced.result_bind]
  exact h.bind fun _ _ => .same _

theorem Concur.settled {x y : Run (State × Term)} (h : Concur x.result y.result) :
    Concur x.settled.result y.settled.result := by
  simp only [Run.settled, Traced.result_bind]
  exact h.bind fun _ _ => .same _

namespace Machine

variable {m : Machine} {t : Term} {ts : List Term}

/-! ### Big steps -/

theorem bigSteps_concur
    (ih : ∀ t ∈ ts, ∀ s l, Concur (@bigStep o m s l t).result (@bigStep o' m s l t).result) :
    ∀ s l, Concur (@bigSteps o m s l ts).result (@bigSteps o' m s l ts).result := by
  induction ts with
  | nil =>
    intro s l
    simp only [bigSteps]
    exact .same _
  | cons t us ihs =>
    intro s l
    have ht := (ih t List.mem_cons_self s l).settled
    cases us with
    | nil =>
      simp only [bigSteps]
      exact ht
    | cons u us =>
      simp only [bigSteps, Traced.result_bind]
      refine ht.bind fun x _ => ?_
      split
      · exact ihs (fun w hw => ih w (List.mem_cons_of_mem _ hw)) _ _
      · rw [Traced.result_bind, Traced.result_bind]
        exact (x.1.discard_concur o o' x.2 []).bind fun s _ =>
          ihs (fun w hw => ih w (List.mem_cons_of_mem _ hw)) s _

theorem bigStepAll_concur
    (ih : ∀ t ∈ ts, ∀ s l, Concur (@bigStep o m s l t).result (@bigStep o' m s l t).result) :
    ∀ s l, Concur (@bigStepAll o m s l ts).result (@bigStepAll o' m s l ts).result := by
  induction ts with
  | nil =>
    intro s l
    simp only [bigStepAll]
    exact .same _
  | cons t us ihs =>
    intro s l
    simp only [bigStepAll, Traced.result_bind]
    refine (ih t List.mem_cons_self s l).settled.bind fun x _ => ?_
    exact (ihs (fun w hw => ih w (List.mem_cons_of_mem _ hw)) _ _).bind fun _ _ => .same _

theorem bigConditional_concur
    (ih : ∀ t ∈ ts, ∀ s l, Concur (@bigStep o m s l t).result (@bigStep o' m s l t).result)
    (s : State) (l : Lifetime) (sp : Span) (op : Nat) (equal : Bool) :
    Concur (@bigConditional o m s l sp op equal ts).result
      (@bigConditional o' m s l sp op equal ts).result := by
  unfold bigConditional
  split
  · rename_i lhs rhs onTrue onFalse
    simp only [Traced.result_bind]
    refine (ih lhs (by simp) s l).settled.bind fun x _ =>
      (ih rhs (by simp) x.1 l).settled.bind fun y _ => ?_
    split
    · rw [Traced.result_bind, Traced.result_bind]
      exact (y.1.branch_concur o o' x.2 y.2 onTrue).bind fun s _ => ih onTrue (by simp) s l
    · rw [Traced.result_bind, Traced.result_bind]
      exact (y.1.branch_concur o o' x.2 y.2 onFalse).bind fun s _ => ih onFalse (by simp) s l
  · exact .same _

theorem bigStep_concur (m : Machine) (t : Term) (s : State) (l : Lifetime) :
    Concur (@bigStep o m s l t).result (@bigStep o' m s l t).result := by
  induction t generalizing s l with
  | value sp v =>
    simp only [bigStep, offer_none]
    exact .same _
  | access sp k p =>
    simp only [bigStep, offer_none]
    exact .same _
  | borrow sp mutable p =>
    simp only [bigStep, offer_none]
    exact .same _
  | box sp t ih =>
    simp only [bigStep, offer_none, Traced.result_bind]
    exact (ih s l).settled.bind fun _ _ => .same _
  | letMut sp x xs t ih =>
    simp only [bigStep, offer_none, Traced.result_bind]
    exact (ih s l).settled.bind fun _ _ => .same _
  | assign sp p t ih =>
    simp only [bigStep, offer_none, Traced.result_bind]
    exact (ih s l).settled.bind fun x _ => (x.1.assign_concur o o' x.2 p).reduct
  | block sp inner ts ih =>
    simp only [bigStep, offer_none, Traced.result_bind]
    exact (bigSteps_concur o o' ih s inner).bind fun x _ =>
      (x.1.leave_concur o o' x.2 s.frame inner).reduct
  | ext sp op ts ih =>
    rw [@bigStep_form o, @bigStep_form o']
    rcases formOf? m.extensions op with _ | _ | equal
    · exact .same _
    · simp only [Traced.result_bind]
      exact (bigStepAll_concur o o' ih s l).bind fun _ _ => .same _
    · exact bigConditional_concur o o' ih s l sp op equal

/-! ### Small steps -/

theorem stepFirst_concur
    (ih : ∀ t ∈ ts, ∀ s l, Concur (@smallStep o m s l t).result (@smallStep o' m s l t).result) :
    ∀ s l, Concur (@stepFirst o m s l ts).result (@stepFirst o' m s l ts).result := by
  induction ts with
  | nil =>
    intro s l
    simp only [stepFirst]
    exact .same _
  | cons t us ihs =>
    intro s l
    have hs := ihs (fun w hw => ih w (List.mem_cons_of_mem _ hw)) s l
    cases hv : t.value? with
    | some v =>
      simp only [stepFirst, hv, Traced.result_bind]
      exact hs.bind fun _ _ => .same _
    | none =>
      simp only [stepFirst, hv, Traced.result_bind]
      exact (ih t List.mem_cons_self s l).bind fun _ _ => .same _

theorem stepConditional_concur
    (ih : ∀ t ∈ ts, ∀ s l, Concur (@smallStep o m s l t).result (@smallStep o' m s l t).result)
    (s : State) (l : Lifetime) (sp : Span) (op : Nat) (equal : Bool) :
    Concur (@stepConditional o m s l sp op equal ts).result
      (@stepConditional o' m s l sp op equal ts).result := by
  unfold stepConditional
  split
  · rename_i lhs rhs onTrue onFalse
    split
    · simp only [Traced.result_bind]
      exact (s.branch_concur o o' _ _ _).bind fun _ _ => .same _
    · simp only [Traced.result_bind]
      exact (ih rhs (by simp) s l).bind fun _ _ => .same _
    · simp only [Traced.result_bind]
      exact (ih lhs (by simp) s l).bind fun _ _ => .same _
  · exact .same _

theorem smallStep_concur (m : Machine) (t : Term) (s : State) (l : Lifetime) :
    Concur (@smallStep o m s l t).result (@smallStep o' m s l t).result := by
  induction t generalizing s l with
  | value sp v =>
    simp only [smallStep, offer_none]
    exact .same _
  | access sp k p =>
    simp only [smallStep, offer_none]
    exact .same _
  | borrow sp mutable p =>
    simp only [smallStep, offer_none]
    exact .same _
  | box sp t ih =>
    simp only [smallStep, offer_none]
    split
    · exact .same _
    · simp only [Traced.result_bind]
      exact (ih s l).bind fun _ _ => .same _
  | letMut sp x xs t ih =>
    simp only [smallStep, offer_none]
    split
    · exact .same _
    · simp only [Traced.result_bind]
      exact (ih s l).bind fun _ _ => .same _
  | assign sp p t ih =>
    simp only [smallStep, offer_none]
    split
    · exact (s.assign_concur o o' _ p).reduct
    · simp only [Traced.result_bind]
      exact (ih s l).bind fun _ _ => .same _
  | block sp inner ts ih =>
    cases ts with
    | nil =>
      simp only [smallStep, offer_none]
      exact (s.leave_concur o o' _ _ inner).reduct
    | cons t us =>
      simp only [smallStep, offer_none]
      split
      · split
        · exact (s.leave_concur o o' _ _ inner).reduct
        · simp only [Traced.result_bind]
          exact (s.discard_concur o o' _ _).bind fun _ _ => .same _
      · simp only [Traced.result_bind]
        exact (ih t List.mem_cons_self s inner).bind fun _ _ => .same _
  | ext sp op ts ih =>
    rw [@smallStep_form o, @smallStep_form o']
    rcases formOf? m.extensions op with _ | _ | equal
    · exact .same _
    · simp only [Traced.result_bind]
      exact (stepFirst_concur o o' ih s l).bind fun _ _ => .same _
    · exact stepConditional_concur o o' ih s l sp op equal

/-! ### Evaluations -/

theorem reduce_concur (m : Machine) (s : State) (l : Lifetime) (t : Term) :
    Concur (@reduce o m s l t).result (@reduce o' m s l t).result := by
  unfold reduce
  split
  · exact bigStep_concur o o' m t s l
  · exact smallStep_concur o o' m t s l

theorem evaluateFrom_concur (m : Machine) (l : Lifetime) (n i : Nat) (s : State) (t : Term) :
    Concur (@evaluateFrom o m l n i s t).result (@evaluateFrom o' m l n i s t).result := by
  induction n generalizing i s t with
  | zero =>
    unfold evaluateFrom
    cases t.value? <;> exact .same _
  | succ n ih =>
    unfold evaluateFrom
    cases t.value? with
    | some v => exact .same _
    | none =>
      simp only [Traced.result_bind]
      refine Concur.bind ?_ fun x _ => ih (i + 1) x.1 x.2
      rw [@checkedStep_result o, @checkedStep_result o']
      exact (reduce_concur o o' m s l t).bind fun _ _ => .same _

/-- **Evaluations in two orders agree.** -/
theorem evaluate_concur (m : Machine) (s : State) (l : Lifetime) (t : Term) :
    Concur (@evaluate o m s l t).result (@evaluate o' m s l t).result :=
  evaluateFrom_concur o o' m l t.size 0 s t

end Machine

end Ownership
