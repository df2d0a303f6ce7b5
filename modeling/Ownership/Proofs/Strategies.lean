import Mathlib.Control.Monad.Basic
import Ownership.Proofs.Extensions
import Ownership.Proofs.Orders

/-!
# The two strategies agree

Big steps and small steps use the same rules in the same order. A block goes back to
the frame that it was entered with in a big step, and forgets what was bound in its
lifetime in small steps; the frames are the same if nothing else is bound in that
lifetime and no declaration of the block hides a variable from outside
(`popFrame_eq`).

* `Enters`: the blocks that an evaluation enters, and the states in which it does.
* `Machine.bigValue_frame`: a big step binds only what the term declares.
* `Machine.evaluates_bigValue`: the run by small steps ends with the result of the big step.
* `evaluate_strategy`: both strategies give the same value and state, or the same fault, in which
  the order of a hash map may decide between several shared cells (`Concur`).
* `evaluate_strategy_reusedLifetime`: they do not if a block carries the lifetime that the term is
  evaluated under.
-/

namespace Ownership

variable {m : Machine} {l inner : Lifetime} {s s' : State} {t : Term} {ts : List Term}

/-- The result of a big step. -/
abbrev Evaluator := State → Lifetime → Term → Except Fault (State × Value)

mutual

/-- Evaluating a term under a lifetime from the first state enters a block with these statements
in the second state. The extensions give the terms their form, and `run` evaluates the parts. -/
inductive Enters [HashOrder] (es : List Extension) (run : Evaluator) :
    State → Lifetime → Term → State → List Term → Prop where
  | block {s l sp inner ts} : Enters es run s l (.block sp inner ts) s ts
  | inside {s l sp inner ts s₀ us} : StatementEnters es run s inner ts s₀ us →
      Enters es run s l (.block sp inner ts) s₀ us
  | box {s l sp t s₀ us} : Enters es run s l t s₀ us → Enters es run s l (.box sp t) s₀ us
  | letMut {s l sp x xs t s₀ us} : Enters es run s l t s₀ us →
      Enters es run s l (.letMut sp x xs t) s₀ us
  | assign {s l sp p t s₀ us} : Enters es run s l t s₀ us →
      Enters es run s l (.assign sp p t) s₀ us
  | tuple {s l sp o ts s₀ us} : formOf? es o = some .tuple →
      OperandEnters es run s l ts s₀ us → Enters es run s l (.ext sp o ts) s₀ us
  | lhs {s l sp o equal lhs rhs onTrue onFalse s₀ us} :
      formOf? es o = some (.conditional equal) → Enters es run s l lhs s₀ us →
      Enters es run s l (.ext sp o [lhs, rhs, onTrue, onFalse]) s₀ us
  | rhs {s l sp o equal lhs rhs onTrue onFalse s₁ left s₀ us} :
      formOf? es o = some (.conditional equal) → run s l lhs = .ok (s₁, left) →
      Enters es run s₁ l rhs s₀ us →
      Enters es run s l (.ext sp o [lhs, rhs, onTrue, onFalse]) s₀ us
  | arm {s l sp o equal lhs rhs onTrue onFalse s₁ left s₂ right s₃ taken s₀ us} :
      formOf? es o = some (.conditional equal) →
      run s l lhs = .ok (s₁, left) → run s₁ l rhs = .ok (s₂, right) →
      taken = (if State.takesFirst equal left right then onTrue else onFalse) →
      (s₂.branch left right taken).result = .ok s₃ → Enters es run s₃ l taken s₀ us →
      Enters es run s l (.ext sp o [lhs, rhs, onTrue, onFalse]) s₀ us

/-- The same for statements, where values between them are dropped. -/
inductive StatementEnters [HashOrder] (es : List Extension) (run : Evaluator) :
    State → Lifetime → List Term → State → List Term → Prop where
  | head {s l t ts s₀ us} : Enters es run s l t s₀ us → StatementEnters es run s l (t :: ts) s₀ us
  | tail {s l t ts s₁ v s₂ s₀ us} : run s l t = .ok (s₁, v) →
      (if v = .unit then pure s₁ else s₁.discard v []).result = .ok s₂ →
      StatementEnters es run s₂ l ts s₀ us → StatementEnters es run s l (t :: ts) s₀ us

/-- The same for operands, whose values are kept. -/
inductive OperandEnters [HashOrder] (es : List Extension) (run : Evaluator) :
    State → Lifetime → List Term → State → List Term → Prop where
  | head {s l t ts s₀ us} : Enters es run s l t s₀ us → OperandEnters es run s l (t :: ts) s₀ us
  | tail {s l t ts s₁ v s₀ us} : run s l t = .ok (s₁, v) →
      OperandEnters es run s₁ l ts s₀ us → OperandEnters es run s l (t :: ts) s₀ us

end

section

variable [HashOrder] {es : List Extension} {run : Evaluator}

mutual

/-- A term without blocks enters none. -/
theorem Enters.lifetimes_ne_nil {s s₀ : State} {l : Lifetime} {t : Term} {us : List Term} :
    Enters es run s l t s₀ us → t.lifetimes ≠ []
  | .block => List.cons_ne_nil _ _
  | .inside _ => List.cons_ne_nil _ _
  | .box h => h.lifetimes_ne_nil
  | .letMut h => h.lifetimes_ne_nil
  | .assign h => h.lifetimes_ne_nil
  | .tuple _ h => h.lifetimes_ne_nil
  | .lhs _ h => by simp [Term.lifetimes, Term.allLifetimes, h.lifetimes_ne_nil]
  | .rhs _ _ h => by simp [Term.lifetimes, Term.allLifetimes, h.lifetimes_ne_nil]
  | .arm _ _ _ e _ h => by
    have := h.lifetimes_ne_nil
    subst e
    split at this <;> simp [Term.lifetimes, Term.allLifetimes, this]

theorem OperandEnters.lifetimes_ne_nil {s s₀ : State} {l : Lifetime} {ts us : List Term} :
    OperandEnters es run s l ts s₀ us → Term.allLifetimes ts ≠ []
  | .head h => by simp [Term.allLifetimes, h.lifetimes_ne_nil]
  | .tail _ h => by simp [Term.allLifetimes, h.lifetimes_ne_nil]

end

/-- Statements without blocks are passed over. -/
theorem StatementEnters.rest {s₀ : State} {us : List Term}
    (h : StatementEnters es run s l (t :: ts) s₀ us) (ht : t.lifetimes = []) :
    ∃ s', StatementEnters es run s' l ts s₀ us := by
  cases h with
  | head h => exact absurd ht h.lifetimes_ne_nil
  | tail _ _ h => exact ⟨_, h⟩

end

/-! ### Frames -/

/-- The frame `f'` has the bindings of `f`, but for names in `xs` that it binds in `l`. -/
def Declares (l : Lifetime) (xs : List String) (f f' : NameMap Binding) : Prop :=
  ∀ x, f'.get? x = f.get? x ∨ x ∈ xs ∧ ∃ b, f'.get? x = some b ∧ b.lifetime = l

namespace Declares

variable {xs ys : List String} {f f' f'' : NameMap Binding}

theorem refl : Declares l xs f f := fun _ => .inl rfl

theorem mono (hs : ∀ x ∈ xs, x ∈ ys) (h : Declares l xs f f') : Declares l ys f f' :=
  fun x => (h x).imp_right fun ⟨hx, b⟩ => ⟨hs x hx, b⟩

theorem trans (h : Declares l xs f f') (h' : Declares l ys f' f'') :
    Declares l (xs ++ ys) f f'' := by
  intro x
  rcases h' x with e | ⟨hx, b⟩
  · rcases h x with e' | ⟨hx, b, hb, hl⟩
    · exact .inl (e.trans e')
    · exact .inr ⟨List.mem_append_left _ hx, b, e.trans hb, hl⟩
  · exact .inr ⟨List.mem_append_right _ hx, b⟩

/-- Without the bindings of `l`, nothing is new if no declared name was bound before. -/
theorem popFrame_eq (h : Declares l xs f f')
    (hx : ∀ x ∈ xs, (State.popFrame f l).get? x = none) :
    State.popFrame f' l = State.popFrame f l := by
  refine NameMap.ext_get? fun x => ?_
  rcases h x with e | ⟨hm, b, hb, hl⟩
  · simp only [State.popFrame, NameMap.get?_filter, e]
  · rw [hx x hm, State.popFrame, NameMap.get?_filter, hb]
    simp [Option.filter, hl]

end Declares

namespace Machine

/-- The blocks of these lifetimes are new: they are pairwise distinct, and neither the frame nor
the lifetime around them uses one of them. -/
structure Untagged (f : NameMap Binding) (l : Lifetime) (ls : List Lifetime) : Prop where
  nodup : ls.Nodup
  notMem : l ∉ ls
  frame : ∀ x b, f.get? x = some b → b.lifetime ∉ ls

namespace Untagged

variable {f f' : NameMap Binding} {ls ks : List Lifetime} {xs : List String}

theorem left (h : Untagged f l (ls ++ ks)) : Untagged f l ls where
  nodup := (List.nodup_append.1 h.nodup).1
  notMem := fun hl => h.notMem (List.mem_append_left _ hl)
  frame := fun x b hb hl => h.frame x b hb (List.mem_append_left _ hl)

theorem right (h : Untagged f l (ls ++ ks)) : Untagged f l ks where
  nodup := (List.nodup_append.1 h.nodup).2.1
  notMem := fun hl => h.notMem (List.mem_append_right _ hl)
  frame := fun x b hb hl => h.frame x b hb (List.mem_append_right _ hl)

theorem inside (h : Untagged f l (inner :: ls)) : Untagged f inner ls where
  nodup := (List.nodup_cons.1 h.nodup).2
  notMem := (List.nodup_cons.1 h.nodup).1
  frame := fun x b hb hl => h.frame x b hb (List.mem_cons_of_mem _ hl)

theorem declares (h : Untagged f l ls) (hd : Declares l xs f f') : Untagged f' l ls where
  nodup := h.nodup
  notMem := h.notMem
  frame := by
    intro x b hb
    rcases hd x with e | ⟨-, b', hb', e⟩
    · exact h.frame x b (e ▸ hb)
    · rw [hb] at hb'
      cases hb'
      exact e ▸ h.notMem

/-- No binding of the frame is forgotten with a new lifetime. -/
theorem popFrame_eq (h : Untagged f l (inner :: ls)) : State.popFrame f inner = f := by
  refine NameMap.ext_get? fun x => ?_
  rw [State.popFrame, NameMap.get?_filter]
  cases hb : f.get? x with
  | none => rfl
  | some b =>
    have : b.lifetime ≠ inner := fun e => h.frame x b hb (e ▸ List.mem_cons_self)
    simp [Option.filter, this]

end Untagged

variable [HashOrder]

/-- A value that is given up between statements leaves the frame as it is. -/
theorem discard_frame (h : (if v = .unit then pure s else s.discard v []).result = .ok s') :
    s'.frame = s.frame := by
  split at h
  · cases h; rfl
  · obtain ⟨_, -, rfl⟩ := State.discard_ok.1 h
    rfl

theorem bigSteps_frame {ts : List Term}
    (ih : ∀ t ∈ ts, ∀ {l s s' v}, m.bigValue s l t = .ok (s', v) →
      Declares l t.declares s.frame s'.frame)
    (h : (m.bigSteps s l ts).result = .ok (s', v)) :
    Declares l (Term.allDeclares ts) s.frame s'.frame := by
  induction ts generalizing s with
  | nil =>
    rw [bigSteps_nil] at h
    cases h
    exact .refl
  | cons t ts ihs =>
    cases ts with
    | nil =>
      rw [bigSteps_singleton] at h
      simpa [Term.allDeclares] using ih t List.mem_cons_self h
    | cons u us =>
      simp only [bigSteps_cons, Traced.bind_eq_ok] at h
      obtain ⟨⟨s₁, w⟩, h₁, s₂, h₂, h₃⟩ := h
      have hd : Declares l t.declares s.frame s₂.frame :=
        discard_frame h₂ ▸ ih t List.mem_cons_self h₁
      exact hd.trans (ihs (fun w hw => ih w (List.mem_cons_of_mem _ hw)) h₃)

theorem bigStepAll_frame {ts : List Term} {vs : List Value}
    (ih : ∀ t ∈ ts, ∀ {l s s' v}, m.bigValue s l t = .ok (s', v) →
      Declares l t.declares s.frame s'.frame)
    (h : (m.bigStepAll s l ts).result = .ok (s', vs)) :
    Declares l (Term.allDeclares ts) s.frame s'.frame := by
  induction ts generalizing s vs with
  | nil =>
    rw [bigStepAll_nil] at h
    cases h
    exact .refl
  | cons t ts ihs =>
    simp only [bigStepAll_cons, Traced.bind_eq_ok, Traced.map_eq_ok] at h
    obtain ⟨⟨s₁, w⟩, h₁, ⟨s₂, ws⟩, h₂, e⟩ := h
    cases e
    exact (ih t List.mem_cons_self h₁).trans
      (ihs (fun w hw => ih w (List.mem_cons_of_mem _ hw)) h₂)

/-- **A big step binds only what the term declares**, in the lifetime that it is taken under. -/
theorem bigValue_frame (t : Term) (h : m.bigValue s l t = .ok (s', v)) :
    Declares l t.declares s.frame s'.frame := by
  induction t generalizing l s s' v with
  | value sp w =>
    rw [bigValue_value] at h
    cases h
    exact .refl
  | access sp k p =>
    rw [bigValue_access] at h
    obtain ⟨_, -, -, -, h⟩ := State.access_ok.1 h
    split at h
    · obtain ⟨_, -, rfl⟩ := h
      exact .refl
    · subst h
      exact .refl
  | borrow sp mutable p =>
    rw [bigValue_borrow, Traced.map_eq_ok] at h
    obtain ⟨_, -, e⟩ := h
    cases e
    exact .refl
  | box sp t ih =>
    rw [bigValue_box, Traced.bind_eq_ok] at h
    obtain ⟨⟨s₁, w⟩, h₁, h⟩ := h
    obtain ⟨rfl, -⟩ := State.box_ok.1 h
    have hd := ih h₁
    exact hd
  | letMut sp x xs t ih =>
    rw [bigValue_letMut, Traced.bind_eq_ok] at h
    obtain ⟨y, hy, h⟩ := h
    obtain ⟨rfl, -⟩ := State.bind_ok.1 h
    intro z
    by_cases e : z = x
    · refine .inr ⟨by simp [Term.declares, e], ⟨.borrowed y.1.store.cells.size, l⟩, ?_, rfl⟩
      simp [State.declare, Store.allocate, e]
    · have hz : (y.1.declare x l y.2).frame.get? z = y.1.frame.get? z := by
        simp [State.declare, Store.allocate, NameMap.get?_insert, e]
      rw [hz]
      exact (ih hy).mono (fun _ h => List.mem_cons_of_mem _ h) z
  | assign sp p t ih =>
    rw [bigValue_assign, Traced.bind_eq_ok] at h
    obtain ⟨⟨s₁, w⟩, h₁, h⟩ := h
    obtain ⟨_, _, _, _, -, -, -, -, rfl, -⟩ := State.assign_ok.1 h
    have hd := ih h₁
    exact hd
  | block sp inner ts ih =>
    rw [bigValue_block, Traced.bind_eq_ok] at h
    obtain ⟨x, -, h⟩ := h
    obtain ⟨_, -, rfl, -⟩ := State.leave_ok.1 h
    exact .refl
  | ext sp o ts ih =>
    cases exists_use m.extensions o ts with
    | tuple hf =>
      rw [bigValue_tuple sp hf, Traced.bind_eq_ok] at h
      obtain ⟨x, hx, h⟩ := h
      obtain ⟨rfl, -⟩ := State.tuple_ok.1 h
      exact bigStepAll_frame (fun t ht => ih t ht) hx
    | @conditional equal lhs rhs onTrue onFalse hf =>
      simp only [bigValue_conditional sp hf, Traced.bind_eq_ok] at h
      obtain ⟨⟨s₁, left⟩, h₁, ⟨s₂, right⟩, h₂, s₃, h₃, h₄⟩ := h
      have hs : s₃.frame = s₂.frame := by
        obtain ⟨_, _, -, -, rfl⟩ := State.branch_ok.1 h₃
        rfl
      have ht := ih (if State.takesFirst equal left right then onTrue else onFalse)
        (by split <;> simp) h₄
      -- the arm declares no more than both arms do
      refine (((ih lhs (by simp) h₁).trans (ih rhs (by simp) h₂)).trans (hs ▸ ht)).mono ?_
      intro x hx
      simp only [Term.declares, Term.allDeclares, List.mem_append] at hx ⊢
      split at hx <;> rcases hx with (hx | hx) | hx <;> simp [hx]
    | stuck ht hc =>
      rw [bigValue_stuck sp ht hc] at h
      cases h

/-! ### The simulation -/

/-- No block hides a variable: what it declares is not bound when it is entered. -/
def Shadowless (m : Machine) (s : State) (l : Lifetime) (t : Term) : Prop :=
  ∀ s₀ us, Enters m.extensions m.bigValue s l t s₀ us →
    ∀ x ∈ Term.allDeclares us, s₀.frame.get? x = none

/-- Small steps lead to the result of the big step. -/
def Simulated (m : Machine) (t : Term) : Prop :=
  ∀ {s l}, t.Plain → Untagged s.frame l t.lifetimes → Shadowless m s l t →
    Evaluates m l (fun _ _ => True) s t (m.bigValue s l t)

theorem dropValue_plain {st : Store} {vs : List Value} (h : ∀ w ∈ vs, ∃ n, w = .int n) :
    (st.dropValue v vs).result = (st.dropValue v []).result := by
  have hr : vs.flatMap Value.references = [] := by
    rw [List.flatMap_eq_nil_iff]
    intro w hw
    obtain ⟨n, rfl⟩ := h w hw
    rfl
  have hh : ∀ st : Store, st.held vs = st.held [] := by
    intro st
    simp [Store.held, hr]
  simp only [Store.dropValue_result, Store.checkAfterDrop, Store.checkReferences,
    Store.ownerCounts, Store.owners, hh]

/-- Statements that are still to come make no difference when a value is dropped. -/
theorem discard_plain (h : ∀ t ∈ ts, t.Plain) :
    (s.discard v (ts.flatMap Term.values)).result = (s.discard v []).result := by
  have hv : ∀ w ∈ ts.flatMap Term.values, ∃ n, w = .int n := fun w hw => by
    obtain ⟨t, ht, hw⟩ := List.mem_flatMap.1 hw
    exact h t ht w hw
  simp only [State.discard, Traced.result_bind, dropValue_plain hv]

omit [HashOrder] in
/-- A statement that holds integers only has not come to unit. -/
theorem blockFrom_plain {sp : Span} (h : t.Plain) :
    blockFrom sp inner ts t = .block sp inner (t :: ts) := by
  refine congrArg _ (if_neg fun hv => ?_)
  obtain ⟨sp, rfl⟩ := Term.value?_eq_some.1 hv
  obtain ⟨n, hn⟩ := h .unit (by simp [Term.values, Term.pushValues])
  cases hn

omit [HashOrder] in
theorem reduct_result (x : Run (State × Value)) :
    x.reduct.result = x.result.map fun y => (y.1, .ofValue y.2) := by
  simp only [Run.reduct, Traced.result_bind]
  cases x.result <;> rfl

/-- The statements of a block, from one of them on. `f` is the frame that the block was entered
with. -/
theorem evaluates_block {sp : Span} {f : NameMap Binding} (ih : ∀ t ∈ ts, Simulated m t)
    (hp : ∀ t ∈ ts, t.Plain) (hu : Untagged s.frame inner (Term.allLifetimes ts))
    (he : ∀ s₀ us, StatementEnters m.extensions m.bigValue s inner ts s₀ us →
      ∀ x ∈ Term.allDeclares us, s₀.frame.get? x = none)
    (hx : ∀ x ∈ Term.allDeclares ts, f.get? x = none) (hf : State.popFrame s.frame inner = f) :
    Evaluates m l (fun _ _ => True) s (.block sp inner ts)
      ((m.bigSteps s inner ts).result >>= fun x => (x.1.leave f inner x.2).result) := by
  induction ts generalizing s with
  | nil =>
    refine .of_rule rfl ?_ fun _ _ _ => trivial
    simp only [smallStep, offer_none, reduct_result, hf, bigSteps_nil]
    rfl
  | cons t us ihs =>
    have h₀ := ih t List.mem_cons_self (hp t List.mem_cons_self) hu.left
      fun s₀ us h => he s₀ us (.head h)
    -- what the statement declares is not bound in `f`, so it goes with the block
    have hpop : ∀ {s' v}, m.bigValue s inner t = .ok (s', v) →
        State.popFrame s'.frame inner = f := by
      intro s' v h
      rw [← hf]
      refine (bigValue_frame t h).popFrame_eq fun x h => ?_
      rw [hf]
      exact hx x (List.mem_append_left _ h)
    rw [← blockFrom_plain (hp t List.mem_cons_self)]
    cases us with
    | nil =>
      rw [bigSteps_singleton]
      refine h₀.congr (context_block m l sp inner []) (fun _ _ h => h) ?_
      intro s' v sp' hr
      refine .of_rule rfl ?_ fun _ _ _ => trivial
      by_cases hv : v = .unit
      · simp only [blockFrom, Term.value?, hv, if_true, smallStep, offer_none, reduct_result,
          hpop hr]
      · simp only [blockFrom, Term.value?, Option.some.injEq, hv, if_false, smallStep, offer_none,
          List.isEmpty_nil, if_true, reduct_result, hpop hr]
    | cons u us =>
      rw [bigSteps_cons]
      simp only [bind_assoc]
      refine h₀.congr (context_block m l sp inner (u :: us))
        (fun _ _ h => h) ?_
      intro s' v sp' hr
      -- the run of the statements that are left, once the value of this one is dropped
      have rest : ∀ s₂ : State, (if v = .unit then pure s' else s'.discard v []).result = .ok s₂ →
          Evaluates m l (fun _ _ => True) s₂ (.block sp inner (u :: us))
            ((m.bigSteps s₂ inner (u :: us)).result >>= fun x =>
              (x.1.leave f inner x.2).result) := by
        intro s₂ h₂
        refine ihs (fun w hw => ih w (List.mem_cons_of_mem _ hw))
          (fun w hw => hp w (List.mem_cons_of_mem _ hw)) ?_ ?_
          (fun x h => hx x (List.mem_append_right _ h)) ?_
        · rw [discard_frame h₂]
          exact hu.right.declares (bigValue_frame t hr)
        · exact fun s₀ us h => he s₀ us (.tail hr h₂ h)
        · rw [discard_frame h₂]
          exact hpop hr
      by_cases hv : v = .unit
      · simp only [blockFrom, Term.value?, hv, if_true]
        exact rest s' (by rw [if_pos hv]; rfl)
      · simp only [blockFrom, Term.value?, Option.some.injEq, hv, if_false]
        have hd : (s'.discard v ((u :: us).flatMap Term.values)).result =
            (s'.discard v []).result :=
          discard_plain fun w hw => hp w (List.mem_cons_of_mem _ hw)
        cases hs : (s'.discard v []).result with
        | error e =>
          refine .fault rfl ?_
          simp only [smallStep, offer_none, Term.value?, List.isEmpty_cons]
          rw [if_neg (by simp), Traced.result_bind, hd, hs]
          rfl
        | ok s₂ =>
          refine .step rfl ?_ trivial (rest s₂ (by rw [if_neg hv, hs]))
          simp only [smallStep, offer_none, Term.value?, List.isEmpty_cons]
          rw [if_neg (by simp), Traced.result_bind, hd, hs]
          rfl

/-- The operands of a tuple, from one of them on. Those before it have the values `vs`. -/
theorem evaluates_tuple {sp : Span} {o : Nat} (ho : formOf? m.extensions o = some .tuple)
    (us : List Term) (vs : List Value) (hus : us.map Term.value? = vs.map some)
    (ih : ∀ t ∈ ts, Simulated m t) (hp : ∀ t ∈ ts, t.Plain)
    (hu : Untagged s.frame l (Term.allLifetimes ts))
    (he : ∀ s₀ us, OperandEnters m.extensions m.bigValue s l ts s₀ us →
      ∀ x ∈ Term.allDeclares us, s₀.frame.get? x = none) :
    Evaluates m l (fun _ _ => True) s (.ext sp o (us ++ ts))
      ((m.bigStepAll s l ts).result >>= fun x => (x.1.tuple (vs ++ x.2)).result) := by
  induction ts generalizing s us vs with
  | nil =>
    refine .of_rule rfl ?_ fun _ _ _ => trivial
    simp only [List.append_nil, smallStep_tupled s l sp ho hus, bigStepAll_nil, Traced.ok_bind,
      reduct_result]
  | cons t ts ihs =>
    have h₀ := ih t List.mem_cons_self (hp t List.mem_cons_self) hu.left
      fun s₀ us h => he s₀ us (.head h)
    rw [bigStepAll_cons]
    simp only [bind_assoc]
    refine h₀.congr (context_operand m l sp ho (Term.isValue_of_operands hus) ts)
      (fun _ _ h => h) ?_
    intro s' v sp' hr
    have h₁ := ihs (us ++ [.value sp' v]) (vs ++ [v]) (by simp [hus, Term.value?])
      (fun w hw => ih w (List.mem_cons_of_mem _ hw)) (fun w hw => hp w (List.mem_cons_of_mem _ hw))
      (hu.right.declares (bigValue_frame t hr)) (fun s₀ us h => he s₀ us (.tail hr h))
    rw [List.append_assoc, List.singleton_append] at h₁
    -- the value joins those before it
    have hr : ∀ x : Except Fault (State × List Value),
        (x >>= fun y => (y.1.tuple (vs ++ [v] ++ y.2)).result) =
          (x.map fun y => (y.1, v :: y.2)) >>= fun y => (y.1.tuple (vs ++ y.2)).result := by
      intro x
      cases x with
      | error e => rfl
      | ok y => simp [Except.map]
    exact hr _ ▸ h₁

theorem evaluates_conditional {sp : Span} {o : Nat} {equal : Bool}
    {lhs rhs onTrue onFalse : Term} (hf : formOf? m.extensions o = some (.conditional equal))
    (ih : ∀ t ∈ [lhs, rhs, onTrue, onFalse], Simulated m t)
    (hp : ∀ t ∈ [lhs, rhs, onTrue, onFalse], t.Plain)
    (hu : Untagged s.frame l (Term.allLifetimes [lhs, rhs, onTrue, onFalse]))
    (he : m.Shadowless s l (.ext sp o [lhs, rhs, onTrue, onFalse])) :
    Evaluates m l (fun _ _ => True) s (.ext sp o [lhs, rhs, onTrue, onFalse])
      (m.bigValue s l (.ext sp o [lhs, rhs, onTrue, onFalse])) := by
  rw [bigValue_conditional sp hf]
  -- the left operand, and then the right one
  refine (ih lhs (by simp) (hp lhs (by simp)) hu.left
    fun s₀ us h => he s₀ us (.lhs hf h)).congr (context_lhs m l sp hf rhs onTrue onFalse)
    (fun _ _ h => h) ?_
  intro s₁ left sp₁ h₁
  have hu₁ := hu.right.declares (bigValue_frame lhs h₁)
  refine (ih rhs (by simp) (hp rhs (by simp)) hu₁.left
    fun s₀ us h => he s₀ us (.rhs hf h₁ h)).congr (context_rhs m l sp hf rfl onTrue onFalse)
    (fun _ _ h => h) ?_
  intro s₂ right sp₂ h₂
  have hu₂ := hu₁.right.declares (bigValue_frame rhs h₂)
  -- one step compares them and leaves the arm that is taken
  have hs := smallStep_branch m s₂ l sp hf (rfl : (Term.value sp₁ left).value? = _)
    (rfl : (Term.value sp₂ right).value? = _) onTrue onFalse
  cases hb : (s₂.branch left right
    (if State.takesFirst equal left right then onTrue else onFalse)).result with
  | error e => exact .fault rfl (by rw [hs, hb]; rfl)
  | ok s₃ =>
    refine .step rfl (by rw [hs, hb]; rfl) trivial ?_
    have hs₃ : s₃.frame = s₂.frame := by
      obtain ⟨_, _, -, -, rfl⟩ := State.branch_ok.1 hb
      rfl
    refine ih _ (by split <;> simp) (hp _ (by split <;> simp)) ?_
      fun s₀ us h => he s₀ us (.arm hf h₁ h₂ rfl hb h)
    rw [hs₃]
    split
    · exact hu₂.left
    · exact hu₂.right.left

/-- **Small steps lead to the result of the big step.** -/
theorem evaluates_bigValue (t : Term) : Simulated m t := by
  induction t with
  | value sp v =>
    intro s l _ _ _
    rw [bigValue_value]
    exact .value s sp v
  | access sp k p =>
    intro s l _ _ _
    refine .of_rule rfl ?_ fun _ _ _ => trivial
    rw [bigValue_access, smallStep, offer_none, reduct_result]
  | borrow sp mutable p =>
    intro s l _ _ _
    refine .of_rule rfl ?_ fun _ _ _ => trivial
    rw [bigValue_borrow, smallStep, offer_none, Traced.result_bind]
    cases (s.borrow p).result <;> rfl
  | box sp t ih =>
    intro s l hp hu he
    rw [bigValue_box]
    refine (ih hp hu fun s₀ us h => he s₀ us (.box h)).congr (context_box m l sp)
      (fun _ _ h => h) fun s' v sp' _ => .of_rule rfl ?_ fun _ _ _ => trivial
    simp only [smallStep, offer_none, Term.value?, reduct_result]
  | letMut sp x xs t ih =>
    intro s l hp hu he
    rw [bigValue_letMut]
    refine (ih hp hu fun s₀ us h => he s₀ us (.letMut h)).congr (context_letMut m l sp x xs)
      (fun _ _ h => h) fun s' v sp' _ => .of_rule rfl ?_ fun _ _ _ => trivial
    simp only [smallStep, offer_none, Term.value?, reduct_result]
  | assign sp p t ih =>
    intro s l hp hu he
    rw [bigValue_assign]
    refine (ih hp hu fun s₀ us h => he s₀ us (.assign h)).congr (context_assign m l sp p)
      (fun _ _ h => h) fun s' v sp' _ => .of_rule rfl ?_ fun _ _ _ => trivial
    simp only [smallStep, offer_none, Term.value?, reduct_result]
  | block sp inner ts ih =>
    intro s l hp hu he
    rw [bigValue_block]
    exact evaluates_block ih (fun t ht => hp.of_block ht) hu.inside
      (fun s₀ us h => he s₀ us (.inside h)) (he s ts .block) hu.popFrame_eq
  | ext sp o ts ih =>
    intro s l hp hu he
    have hp' : ∀ t ∈ ts, t.Plain := fun t ht => hp.of_ext ht
    cases exists_use m.extensions o ts with
    | tuple hf =>
      rw [bigValue_tuple sp hf]
      exact evaluates_tuple hf [] [] rfl ih hp' hu fun s₀ us h => he s₀ us (.tuple hf h)
    | conditional hf => exact evaluates_conditional hf ih hp' hu he
    | stuck ht hc =>
      rw [bigValue_stuck sp ht hc]
      exact .fault rfl (by rw [smallStep_stuck s l sp ht hc]; rfl)

/-! ### The strategies -/

variable {m' : Machine}

/-- Of the machine, a big step uses the extensions only. -/
theorem bigValue_congr (h : m.extensions = m'.extensions) : m.bigValue = m'.bigValue := by
  funext s l t
  have same : t.SameForms m.extensions m'.extensions := fun o _ => by rw [h]
  rw [bigValue, bigValue, bigStep_congr same]

/-- Where small steps lead to the result of the big step, it is the result of either strategy,
unless the heap is checked. -/
theorem evaluate_of_run (es : List Extension) (strategy : Strategy)
    (run : Evaluates ⟨strategy, false, es⟩ l (fun _ _ => True) s t
      (bigValue ⟨strategy, false, es⟩ s l t)) :
    (evaluate ⟨strategy, false, es⟩ s l t).result = bigValue ⟨strategy, false, es⟩ s l t := by
  cases strategy with
  | bigStep =>
    cases hv : t.value? with
    | some v =>
      obtain ⟨sp, rfl⟩ := Term.value?_eq_some.1 hv
      rw [evaluate_value hv, bigValue_value]
    | none =>
      rw [evaluate_bigStep rfl hv]
      cases bigValue ⟨.bigStep, false, es⟩ s l t <;> rfl
  | smallStep =>
    have unchecked : ∀ s t, True → Checked ⟨.smallStep, false, es⟩ s t :=
      fun _ _ _ h => absurd h Bool.false_ne_true
    exact evaluate_eq rfl (run.mono unchecked)

/-- Without checks of the heap both strategies have the result of the big step. -/
theorem evaluate_unchecked (es : List Extension) (strategy : Strategy) (hp : t.Plain)
    (hu : Untagged s.frame l t.lifetimes) (he : Shadowless ⟨strategy, false, es⟩ s l t) :
    (evaluate ⟨strategy, false, es⟩ s l t).result = bigValue ⟨strategy, false, es⟩ s l t :=
  evaluate_of_run es strategy (evaluates_bigValue t hp hu he)

/-- Blocks are entered alike by all machines with the same extensions. -/
theorem Shadowless.congr (he : m.Shadowless s l t) (h : m.extensions = m'.extensions) :
    m'.Shadowless s l t := by
  rw [Shadowless, ← h, ← bigValue_congr h]
  exact he

theorem evaluate_same (es : List Extension) (hp : t.Plain) (hu : Untagged s.frame l t.lifetimes)
    (he : Shadowless ⟨.bigStep, false, es⟩ s l t) :
    (evaluate ⟨.bigStep, false, es⟩ s l t).result =
      (evaluate ⟨.smallStep, false, es⟩ s l t).result := by
  have hb : bigValue ⟨.bigStep, false, es⟩ = bigValue ⟨.smallStep, false, es⟩ := bigValue_congr rfl
  have small := evaluate_unchecked es .smallStep hp hu (he.congr rfl)
  rw [evaluate_unchecked es .bigStep hp hu he, hb, small]

/-- With checks of the heap, the one after the last small step is the one after the big step. -/
theorem evaluate_checks (es : List Extension) (hp : t.Plain)
    (hu : Untagged s.frame l t.lifetimes) (he : Shadowless ⟨.smallStep, true, es⟩ s l t)
    {x : State × Value} (h : (evaluate ⟨.smallStep, true, es⟩ s l t).result = .ok x) :
    (evaluate ⟨.bigStep, true, es⟩ s l t).result = .ok x := by
  cases hv : t.value? with
  | some v => rwa [evaluate_value hv] at h ⊢
  | none =>
    have hs := evaluates_of_evaluateFrom rfl h
    have hb : bigValue ⟨.bigStep, true, es⟩ = bigValue ⟨.smallStep, true, es⟩ := bigValue_congr rfl
    have hx : bigValue ⟨.bigStep, true, es⟩ s l t = .ok x := by
      rw [hb]
      exact (evaluates_bigValue t hp hu he).det hs
    obtain ⟨sp, hc⟩ := hs.last hv
    rw [evaluate_bigStep rfl hv, hx, Traced.ok_bind, if_pos rfl]
    rw [show x.1.store.checkHeap [x.2] = .ok () from hc rfl]
    rfl

end Machine

open Machine

/-- **Both strategies have the same result**: the same value and state, addresses included, or the
same fault. Where a drop finds several shared cells, and only there, the fault depends on the order
in which the run goes through its hash map, so that two runs agree up to the cell that is named. The
term holds integers only, its blocks have new lifetimes, and none of them hides a variable. With the
heap checked after every step, a success of the small steps is one of the big step, in all
orders. -/
theorem evaluate_strategy (o o' : HashOrder) (es : List Extension) (s : State) (l : Lifetime)
    (t : Term) (hp : t.Plain) (hu : Untagged s.frame l t.lifetimes)
    (he : @Shadowless o ⟨.bigStep, false, es⟩ s l t) :
    (@evaluate o ⟨.bigStep, false, es⟩ s l t).result =
      (@evaluate o ⟨.smallStep, false, es⟩ s l t).result ∧
    Concur (@evaluate o ⟨.bigStep, false, es⟩ s l t).result
      (@evaluate o' ⟨.smallStep, false, es⟩ s l t).result ∧
    ∀ x, (@evaluate o' ⟨.smallStep, true, es⟩ s l t).result = .ok x →
      (@evaluate o ⟨.bigStep, true, es⟩ s l t).result = .ok x := by
  have same := @evaluate_same _ _ _ o es hp hu he
  refine ⟨same, ?_, fun x h => ?_⟩
  · rw [same]
    exact evaluate_concur o o' ⟨.smallStep, false, es⟩ s l t
  · refine @evaluate_checks _ _ _ o es hp hu (@Shadowless.congr _ _ _ _ o _ he rfl) x ?_
    exact (evaluate_concur o' o _ s l t).ok h

/-- `{ let mut x = 7; { let mut y = copy x; } }`, with lifetimes of their own for both blocks. -/
def nestedBlocks : Term :=
  .block {} (.inside 1 (.root 0)) [.letMut {} "x" {} (.value {} (.int 7)),
    .block {} (.inside 2 (.inside 1 (.root 0))) [.letMut {} "y" {} (.access {} .copy (.var "x"))]]

theorem plain_nestedBlocks : nestedBlocks.Plain := by
  intro v hv
  exact ⟨7, List.mem_singleton.1 hv⟩

theorem untagged_nestedBlocks :
    Untagged .empty (.root 0) nestedBlocks.lifetimes where
  nodup := by decide
  notMem := by decide
  frame := fun x b h => nomatch h

theorem shadowless_nestedBlocks [HashOrder] (m : Machine) :
    m.Shadowless {} (.root 0) nestedBlocks := by
  intro s₀ us h x hx
  cases h with
  | block => rfl
  | inside h =>
    cases h with
    | head h => exact absurd rfl h.lifetimes_ne_nil
    | tail h₁ h₂ h =>
      cases h with
      | tail _ _ h => cases h
      | head h =>
        cases h with
        | inside h =>
          obtain ⟨_, h⟩ := h.rest rfl
          cases h
        | block =>
          -- the block of `y` is entered with `x` bound only
          rw [discard_frame h₂]
          rcases bigValue_frame _ h₁ x with e | ⟨hm, -⟩
          · exact e
          · simp [Term.declares, Term.allDeclares] at hx hm
            simp [hx] at hm

theorem evaluate_strategy_nestedBlocks :
    nestedBlocks.Plain ∧ Untagged .empty (.root 0) nestedBlocks.lifetimes ∧
    Shadowless ⟨.bigStep, false, Extension.all⟩ {} (.root 0) nestedBlocks ∧
    (evaluate ⟨.bigStep, false, Extension.all⟩ {} (.root 0) nestedBlocks).result =
      (evaluate ⟨.smallStep, false, Extension.all⟩ {} (.root 0) nestedBlocks).result ∧
    Concur (evaluate ⟨.bigStep, false, Extension.all⟩ {} (.root 0) nestedBlocks).result
      (@evaluate .descending ⟨.smallStep, false, Extension.all⟩ {} (.root 0) nestedBlocks).result ∧
    (@evaluate .descending ⟨.smallStep, true, Extension.all⟩ {} (.root 0) nestedBlocks).result =
      .ok (⟨.empty, ⟨#[none, none]⟩⟩, .unit) ∧
    (evaluate ⟨.bigStep, true, Extension.all⟩ {} (.root 0) nestedBlocks).result =
      .ok (⟨.empty, ⟨#[none, none]⟩⟩, .unit) := by
  obtain ⟨same, agrees, checked⟩ := evaluate_strategy .ascending .descending Extension.all {}
    (.root 0) nestedBlocks plain_nestedBlocks untagged_nestedBlocks (shadowless_nestedBlocks _)
  have small : (@evaluate .descending ⟨.smallStep, true, Extension.all⟩ {} (.root 0)
      nestedBlocks).result = .ok (⟨.empty, ⟨#[none, none]⟩⟩, .unit) := by decide +kernel
  exact ⟨plain_nestedBlocks, untagged_nestedBlocks, shadowless_nestedBlocks _, same, agrees, small,
    checked _ small⟩

/-- `{ let mut a = box 1; let mut b = box 2; let mut c = copy a; let mut d = copy b; { 3 } }`, which
leaves two boxes with two owners each. -/
def sharedTwice : Term :=
  .block {} (.inside 1 (.root 0)) [.letMut {} "a" {} (.box {} (.value {} (.int 1))),
    .letMut {} "b" {} (.box {} (.value {} (.int 2))),
    .letMut {} "c" {} (.access {} .copy (.var "a")),
    .letMut {} "d" {} (.access {} .copy (.var "b")),
    .block {} (.inside 2 (.inside 1 (.root 0))) [.value {} (.int 3)]]

theorem untagged_sharedTwice : Untagged .empty (.root 0) sharedTwice.lifetimes where
  nodup := by decide
  notMem := by decide
  frame := fun x b h => nomatch h

theorem plain_sharedTwice : sharedTwice.Plain := by
  intro v hv
  have held : sharedTwice.values = [.int 3, .int 2, .int 1] := rfl
  rw [held] at hv
  simp only [List.mem_cons, List.not_mem_nil, or_false] at hv
  rcases hv with rfl | rfl | rfl <;> exact ⟨_, rfl⟩

theorem shadowless_sharedTwice [HashOrder] (m : Machine) :
    m.Shadowless {} (.root 0) sharedTwice := by
  intro s₀ us h x hx
  cases h with
  | block => rfl
  | inside h =>
    -- only the last statement enters a block, and it declares nothing
    obtain ⟨_, h⟩ := h.rest rfl
    obtain ⟨_, h⟩ := h.rest rfl
    obtain ⟨_, h⟩ := h.rest rfl
    obtain ⟨_, h⟩ := h.rest rfl
    cases h with
    | tail _ _ h => cases h
    | head h =>
      cases h with
      | block => cases hx
      | inside h =>
        obtain ⟨_, h⟩ := h.rest rfl
        cases h

/-- `(let mut x = 1, {})`, where the block carries the lifetime that the tuple is evaluated
under. -/
def reusedLifetime : Term :=
  .ext {} 30 [.letMut {} "x" {} (.value {} (.int 1)), .block {} (.root 0) []]

/-- The block of `reusedLifetime` forgets `x` in small steps, and keeps it in a big step. For
`sharedTwice` the two strategies, and two runs of one of them, may name different cells. -/
theorem evaluate_strategy_reusedLifetime :
    (reusedLifetime.Plain ∧ reusedLifetime.lifetimes.Nodup ∧
    (∀ x (b : Binding), NameMap.empty.get? x = some b → b.lifetime ∉ reusedLifetime.lifetimes) ∧
    Shadowless ⟨.bigStep, false, Extension.all⟩ {} (.root 0) reusedLifetime ∧
    (evaluate ⟨.bigStep, false, Extension.all⟩ {} (.root 0) reusedLifetime).result ≠
      (evaluate ⟨.smallStep, false, Extension.all⟩ {} (.root 0) reusedLifetime).result) ∧
    sharedTwice.Plain ∧ Untagged .empty (.root 0) sharedTwice.lifetimes ∧
    Shadowless ⟨.bigStep, false, Extension.all⟩ {} (.root 0) sharedTwice ∧
    (evaluate ⟨.bigStep, false, Extension.all⟩ {} (.root 0) sharedTwice).result =
      .error (.ownershipInvariant 0 2) ∧
    (@evaluate .descending ⟨.smallStep, false, Extension.all⟩ {} (.root 0) sharedTwice).result =
      .error (.ownershipInvariant 2 2) := by
  refine ⟨⟨fun v hv => ⟨1, List.mem_singleton.1 hv⟩, by decide, (fun x b h => nomatch h), ?_, ?_⟩,
    plain_sharedTwice, untagged_sharedTwice, shadowless_sharedTwice _, by decide +kernel,
    by decide +kernel⟩
  · intro s₀ us h x hx
    cases h with
    | tuple _ h =>
      cases h with
      | head h => exact absurd rfl h.lifetimes_ne_nil
      | tail _ h =>
        cases h with
        | tail _ h => cases h
        | head h =>
          cases h with
          | block => cases hx
          | inside h => cases h
  · decide +kernel

end Ownership
