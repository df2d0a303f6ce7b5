import Mathlib.Control.Monad.Basic
import Ownership.Program
import Ownership.Proofs.Orders
import Ownership.Term.Parts

/-!
# Extensions

Every term is offered to the extensions first, those of the core as well. What they say of a term
depends on the form that they give to its opcode, and on nothing else; none of them takes a term of
the core (`offer_none`, `offer_form`). So two lists of extensions are as good as each other for a
term if they give its opcodes the same forms (`Term.SameForms`), and it does not matter if the
operands are those that a form asks for. This is an induction on the term for typing and for one
step; it goes on to all steps of an evaluation, since what a step leaves of a term has no other
opcodes.

* `formOf?_congr`: no two forms have one opcode, so the order of the extensions decides nothing.
* `Checker.apply_congr`, `Machine.bigStep_congr`, `Machine.smallStep_congr`: one judgement and one
  step.
* `Residue.opcodes_subset`, `Machine.evaluateFrom_congr`: what a step leaves, and all steps.
* `extensions_conservative`: **extensions change nothing for terms of the core**, and nothing for
  any term if they are registered in another order.
-/

namespace Ownership

variable {es es' : List Extension} {m m' : Machine} {t t' : Term} {ts : List Term}

/-! ### Forms and their opcodes -/

theorem Form.opcode_injective {f g : Form} (h : f.opcode = g.opcode) : f = g := by
  have tuple_ne : ∀ b, tuple.opcode ≠ (conditional b).opcode := by decide
  have arms : ∀ a b, (conditional a).opcode = (conditional b).opcode → a = b := by decide
  cases f with
  | tuple =>
    cases g with
    | tuple => rfl
    | conditional b => exact absurd h (tuple_ne b)
  | conditional a =>
    cases g with
    | tuple => exact absurd h.symm (tuple_ne a)
    | conditional b => rw [arms a b h]

theorem Extension.form?_eq_some {e : Extension} {o : Nat} {f : Form} :
    e.form? o = some f ↔ f ∈ e.forms ∧ f.opcode = o := by
  constructor
  · intro h
    exact ⟨List.mem_of_find?_eq_some h, by simpa using List.find?_some h⟩
  · rintro ⟨hf, rfl⟩
    cases h : e.form? f.opcode with
    | none => simpa using List.find?_eq_none.1 h f hf
    | some g =>
      have hg : g.opcode = f.opcode := by simpa using List.find?_some h
      rw [Form.opcode_injective hg]

/-- The form of an opcode is the one form that it belongs to, if some extension has that. -/
theorem formOf?_eq_some {o : Nat} {f : Form} :
    formOf? es o = some f ↔ (∃ e ∈ es, f ∈ e.forms) ∧ f.opcode = o := by
  constructor
  · intro h
    obtain ⟨e, he, hf⟩ := List.exists_of_findSome?_eq_some h
    obtain ⟨hf, ho⟩ := Extension.form?_eq_some.1 hf
    exact ⟨⟨e, he, hf⟩, ho⟩
  · rintro ⟨⟨e, he, hf⟩, ho⟩
    have owned : e.form? o = some f := Extension.form?_eq_some.2 ⟨hf, ho⟩
    cases h : formOf? es o with
    | none => rw [List.findSome?_eq_none_iff.1 h e he] at owned; cases owned
    | some g =>
      -- an extension that comes first cannot say anything else
      obtain ⟨e', -, hg⟩ := List.exists_of_findSome?_eq_some h
      rw [Form.opcode_injective ((Extension.form?_eq_some.1 hg).2.trans ho.symm)]

theorem formOf?_congr (h : ∀ e, e ∈ es ↔ e ∈ es') : formOf? es = formOf? es' := by
  funext o
  refine Option.ext fun f => ?_
  rw [formOf?_eq_some, formOf?_eq_some]
  exact and_congr_left fun _ => exists_congr fun e => and_congr_left fun _ => h e

namespace Term

/-- Both lists of extensions give the opcodes in the term the same forms. -/
def SameForms (es es' : List Extension) (t : Term) : Prop :=
  ∀ o ∈ t.opcodes, formOf? es o = formOf? es' o

namespace SameForms

theorem of_block {sp : Span} {inner : Lifetime} (h : (block sp inner ts).SameForms es es')
    (ht : t ∈ ts) : t.SameForms es es' :=
  fun o ho => h o (mem_allOpcodes.2 ⟨t, ht, ho⟩)

theorem of_ext {sp : Span} {o : Nat} (h : (ext sp o ts).SameForms es es') (ht : t ∈ ts) :
    t.SameForms es es' :=
  fun o' ho => h o' (List.mem_cons_of_mem _ (mem_allOpcodes.2 ⟨t, ht, ho⟩))

theorem formOf?_eq {sp : Span} {o : Nat} (h : (ext sp o ts).SameForms es es') :
    formOf? es o = formOf? es' o :=
  h o List.mem_cons_self

/-- What holds of a term holds of whatever has no other opcodes. -/
theorem mono (h : t.SameForms es es') (ho : t'.opcodes ⊆ t.opcodes) : t'.SameForms es es' :=
  fun o h' => h o (ho h')

theorem of_core (h : t.opcodes = []) : t.SameForms es es' := fun o ho => by
  rw [h] at ho
  cases ho

theorem of_perm (h : es.Perm es') : t.SameForms es es' := fun o _ => by
  rw [formOf?_congr fun _ => h.mem_iff]

end SameForms

end Term

/-! ### Typing -/

namespace Checker

/-- The same checker with these extensions. -/
def withExtensions (c : Checker) (es : List Extension) : Checker := { c with extensions := es }

variable {c c' : Checker} {k : Lifetime}

theorem sequence_congr (h : ∀ t ∈ ts, ∀ Γ, c.apply Γ k t = c'.apply Γ k t) :
    ∀ Γ T, c.sequence Γ k T ts = c'.sequence Γ k T ts := by
  induction ts with
  | nil => intro Γ T; simp only [sequence]
  | cons t ts ih =>
    intro Γ T
    simp only [sequence, h t List.mem_cons_self, ih fun u hu => h u (List.mem_cons_of_mem _ hu)]

theorem park_congr (h : ∀ t ∈ ts, ∀ Γ, c.apply Γ k t = c'.apply Γ k t) :
    ∀ parked, c.park k parked ts = c'.park k parked ts := by
  induction ts with
  | nil => intro parked; simp only [park]
  | cons t ts ih =>
    intro parked
    simp only [park, h t List.mem_cons_self, ih fun u hu => h u (List.mem_cons_of_mem _ hu)]

theorem conditional_congr (c : Checker)
    (h : ∀ t ∈ ts, ∀ Γ, (c.withExtensions es).apply Γ k t = (c.withExtensions es').apply Γ k t)
    (Γ : Env) (sp : Span) (o : Nat) : (c.withExtensions es).conditional Γ k sp o ts =
      (c.withExtensions es').conditional Γ k sp o ts := by
  unfold conditional
  split
  · rename_i lhs rhs onTrue onFalse
    simp only [h lhs (by simp), h rhs (by simp), h onTrue (by simp), h onFalse (by simp)]
    -- the rules for types do not look at the extensions
    rfl
  · rfl

/-- **Typing uses the forms of the opcodes in the term only.** A term of the core is offered to the
extensions, too, and none of them takes it. -/
theorem apply_congr (c : Checker) (h : t.SameForms es es') (Γ : Env) (l : Lifetime) :
    (c.withExtensions es).apply Γ l t = (c.withExtensions es').apply Γ l t := by
  induction t generalizing Γ l with
  | letMut sp x xs t ih => simp only [apply, offer_none, ih h]
  | assign sp p t ih =>
    simp only [apply, offer_none, ih h]
    -- the rules for places do not look at the extensions
    rfl
  | block sp inner ts ih =>
    simp only [apply, offer_none,
      sequence_congr fun t ht Γ => ih t ht (h.of_block ht) Γ inner]
  | access sp k p =>
    simp only [apply, offer_none]
    rfl
  | borrow sp mutable p => simp only [apply, offer_none]
  | box sp t ih => simp only [apply, offer_none, ih h]
  | value sp v => cases v <;> simp only [apply, offer_none]
  | ext sp o ts ih =>
    have same : ∀ t ∈ ts, ∀ Γ,
        (c.withExtensions es).apply Γ l t = (c.withExtensions es').apply Γ l t :=
      fun t ht Γ => ih t ht (h.of_ext ht) Γ l
    have hf : formOf? (c.withExtensions es).extensions o
        = formOf? (c.withExtensions es').extensions o := h.formOf?_eq
    rw [apply_form, apply_form, hf, park_congr same, conditional_congr c same]

end Checker

namespace Machine

variable [HashOrder]

/-- The same machine with these extensions. -/
def withExtensions (m : Machine) (es : List Extension) : Machine := { m with extensions := es }

/-! ### Steps -/

theorem bigSteps_congr (ih : ∀ t ∈ ts, ∀ s l, m.bigStep s l t = m'.bigStep s l t) :
    ∀ s l, m.bigSteps s l ts = m'.bigSteps s l ts := by
  induction ts with
  | nil => intro s l; simp only [bigSteps]
  | cons t us ihs =>
    intro s l
    have ht := ih t List.mem_cons_self
    cases us with
    | nil => simp only [bigSteps, ht]
    | cons u us => simp only [bigSteps, ht, ihs fun w hw => ih w (List.mem_cons_of_mem _ hw)]

theorem bigStepAll_congr (ih : ∀ t ∈ ts, ∀ s l, m.bigStep s l t = m'.bigStep s l t) :
    ∀ s l, m.bigStepAll s l ts = m'.bigStepAll s l ts := by
  induction ts with
  | nil => intro s l; simp only [bigStepAll]
  | cons t us ihs =>
    intro s l
    simp only [bigStepAll, ih t List.mem_cons_self,
      ihs fun w hw => ih w (List.mem_cons_of_mem _ hw)]

theorem bigConditional_congr (ih : ∀ t ∈ ts, ∀ s l, m.bigStep s l t = m'.bigStep s l t)
    (s : State) (l : Lifetime) (sp : Span) (o : Nat) (equal : Bool) :
    m.bigConditional s l sp o equal ts = m'.bigConditional s l sp o equal ts := by
  unfold bigConditional
  split
  · rename_i lhs rhs onTrue onFalse
    simp only [ih lhs (by simp), ih rhs (by simp), ih onTrue (by simp), ih onFalse (by simp)]
  · rfl

/-- Of the machine, a big step uses the forms of the opcodes only. -/
theorem bigStep_congr (h : t.SameForms m.extensions m'.extensions) (s : State) (l : Lifetime) :
    m.bigStep s l t = m'.bigStep s l t := by
  induction t generalizing s l with
  | value sp v => simp only [bigStep, offer_none]
  | access sp k p => simp only [bigStep, offer_none]
  | borrow sp mutable p => simp only [bigStep, offer_none]
  | box sp t ih => simp only [bigStep, offer_none, ih h]
  | letMut sp x xs t ih => simp only [bigStep, offer_none, ih h]
  | assign sp p t ih => simp only [bigStep, offer_none, ih h]
  | block sp inner ts ih =>
    simp only [bigStep, offer_none,
      bigSteps_congr fun t ht s l => ih t ht (h.of_block ht) s l]
  | ext sp o ts ih =>
    have same : ∀ t ∈ ts, ∀ s l, m.bigStep s l t = m'.bigStep s l t :=
      fun t ht s l => ih t ht (h.of_ext ht) s l
    rw [bigStep_form, bigStep_form, h.formOf?_eq, bigStepAll_congr same]
    simp only [bigConditional_congr same]

theorem stepFirst_congr (ih : ∀ t ∈ ts, ∀ s l, m.smallStep s l t = m'.smallStep s l t) :
    ∀ s l, m.stepFirst s l ts = m'.stepFirst s l ts := by
  induction ts with
  | nil => intro s l; simp only [stepFirst]
  | cons t us ihs =>
    intro s l
    simp only [stepFirst, ih t List.mem_cons_self,
      ihs fun w hw => ih w (List.mem_cons_of_mem _ hw)]

theorem stepConditional_congr (ih : ∀ t ∈ ts, ∀ s l, m.smallStep s l t = m'.smallStep s l t)
    (s : State) (l : Lifetime) (sp : Span) (o : Nat) (equal : Bool) :
    m.stepConditional s l sp o equal ts = m'.stepConditional s l sp o equal ts := by
  unfold stepConditional
  split
  · rename_i lhs rhs onTrue onFalse
    simp only [ih lhs (by simp), ih rhs (by simp)]
  · rfl

/-- Of the machine, a small step uses the forms of the opcodes only, too. -/
theorem smallStep_congr (h : t.SameForms m.extensions m'.extensions) (s : State) (l : Lifetime) :
    m.smallStep s l t = m'.smallStep s l t := by
  induction t generalizing s l with
  | value sp v => simp only [smallStep, offer_none]
  | access sp k p => simp only [smallStep, offer_none]
  | borrow sp mutable p => simp only [smallStep, offer_none]
  | box sp t ih => simp only [smallStep, offer_none, ih h]
  | letMut sp x xs t ih => simp only [smallStep, offer_none, ih h]
  | assign sp p t ih => simp only [smallStep, offer_none, ih h]
  | block sp inner ts ih =>
    cases ts with
    | nil => simp only [smallStep, offer_none]
    | cons t ts =>
      simp only [smallStep, offer_none, ih t List.mem_cons_self (h.of_block List.mem_cons_self)]
  | ext sp o ts ih =>
    have same : ∀ t ∈ ts, ∀ s l, m.smallStep s l t = m'.smallStep s l t :=
      fun t ht s l => ih t ht (h.of_ext ht) s l
    rw [smallStep_form, smallStep_form, h.formOf?_eq, stepFirst_congr same]
    simp only [stepConditional_congr same]

theorem reduce_congr (m : Machine) (h : t.SameForms es es') (s : State) (l : Lifetime) :
    (m.withExtensions es).reduce s l t = (m.withExtensions es').reduce s l t := by
  have big : (m.withExtensions es).bigStep s l t = (m.withExtensions es').bigStep s l t :=
    bigStep_congr h s l
  have small : (m.withExtensions es).smallStep s l t = (m.withExtensions es').smallStep s l t :=
    smallStep_congr h s l
  unfold reduce
  rw [big, small]
  rfl

/-! ### Evaluations -/

omit [HashOrder] in
theorem allOpcodes_replace (us ts : List Term) (h : t'.opcodes ⊆ t.opcodes) :
    Term.allOpcodes (us ++ t' :: ts) ⊆ Term.allOpcodes (us ++ t :: ts) := by
  intro o ho
  obtain ⟨u, hu, hou⟩ := Term.mem_allOpcodes.1 ho
  rw [List.mem_append, List.mem_cons] at hu
  rcases hu with hu | rfl | hu
  · exact Term.mem_allOpcodes.2 ⟨u, List.mem_append_left _ hu, hou⟩
  · exact Term.mem_allOpcodes.2 ⟨t, by simp, h hou⟩
  · exact Term.mem_allOpcodes.2 ⟨u, by simp [hu], hou⟩

omit [HashOrder] in
/-- **A step leaves only opcodes that were there.** -/
theorem Residue.opcodes_subset (h : Residue t t') : t'.opcodes ⊆ t.opcodes := by
  induction h with
  | value => exact List.nil_subset _
  | box _ ih => exact ih
  | letMut _ ih => exact ih
  | assign _ ih => exact ih
  | @statement _ _ _ _ ts _ ih => exact allOpcodes_replace [] ts ih
  | rest => exact List.subset_append_right _ _
  | operand us ts _ ih => exact List.cons_subset_cons _ (allOpcodes_replace us ts ih)
  | arm ha => exact fun o ho => List.mem_cons_of_mem _ (Term.mem_allOpcodes.2 ⟨_, ha, ho⟩)

theorem checkedStep_congr (m : Machine) (h : t.SameForms es es') (s : State) (l : Lifetime)
    (i : Nat) : (m.withExtensions es).checkedStep s l t i =
      (m.withExtensions es').checkedStep s l t i := by
  unfold checkedStep
  rw [reduce_congr m h]
  rfl

theorem evaluateFrom_congr (m : Machine) (h : t.SameForms es es') (l : Lifetime) (n i : Nat)
    (s : State) : (m.withExtensions es).evaluateFrom l n i s t =
      (m.withExtensions es').evaluateFrom l n i s t := by
  induction n generalizing i s t with
  | zero =>
    unfold evaluateFrom
    cases t.value? <;> rfl
  | succ n ih =>
    unfold evaluateFrom
    cases hv : t.value? with
    | some v => rfl
    | none =>
      simp only [checkedStep_congr m h]
      refine Traced.bind_congr_result fun x hx => ?_
      have left : Residue t x.2 := reduce_residue hv (checkedStep_ok.1 hx).1
      exact ih (h.mono left.opcodes_subset) (i + 1) x.1

end Machine

/-! ### Both lists of extensions -/

/-- Under `l`, a term is typed and run alike with either list of extensions: whatever the rules of
the checker and the strategy of the machine are, there is the same result or the same error, and
the same is recorded on the way. The machines go through their hash maps in the same order, which
may be any; if each has an order of its own, a fault may name another shared cell. -/
structure Interchangeable (es es' : List Extension) (l : Lifetime) (t : Term) : Prop where
  apply : ∀ (c : Checker) (Γ : Env),
    (c.withExtensions es).apply Γ l t = (c.withExtensions es').apply Γ l t
  checkProgram : ∀ c : Checker,
    (c.withExtensions es).checkProgram l t = (c.withExtensions es').checkProgram l t
  reduce : ∀ (o : HashOrder) (m : Machine) (s : State),
    @Machine.reduce o (m.withExtensions es) s l t = @Machine.reduce o (m.withExtensions es') s l t
  evaluate : ∀ (o : HashOrder) (m : Machine) (s : State),
    @Machine.evaluate o (m.withExtensions es) s l t =
      @Machine.evaluate o (m.withExtensions es') s l t
  reduce_concur : ∀ (o o' : HashOrder) (m : Machine) (s : State),
    Concur (@Machine.reduce o (m.withExtensions es) s l t).result
      (@Machine.reduce o' (m.withExtensions es') s l t).result
  evaluate_concur : ∀ (o o' : HashOrder) (m : Machine) (s : State),
    Concur (@Machine.evaluate o (m.withExtensions es) s l t).result
      (@Machine.evaluate o' (m.withExtensions es') s l t).result

theorem Term.SameForms.interchangeable (h : t.SameForms es es') (l : Lifetime) :
    Interchangeable es es' l t := by
  have step : ∀ (o : HashOrder) (m : Machine) (s : State),
      @Machine.reduce o (m.withExtensions es) s l t =
        @Machine.reduce o (m.withExtensions es') s l t :=
    fun o m s => m.reduce_congr h s l
  have run : ∀ (o : HashOrder) (m : Machine) (s : State),
      @Machine.evaluate o (m.withExtensions es) s l t =
        @Machine.evaluate o (m.withExtensions es') s l t :=
    fun o m s => m.evaluateFrom_congr h l t.size 0 s
  exact {
    apply := fun c Γ => c.apply_congr h Γ l
    checkProgram := fun c => by rw [Checker.checkProgram, Checker.checkProgram, c.apply_congr h]
    reduce := step
    evaluate := run
    reduce_concur := fun o o' m s => step o' m s ▸ Machine.reduce_concur o o' _ s l t
    evaluate_concur := fun o o' m s => run o' m s ▸ Machine.evaluate_concur o o' _ s l t }

/-- **Extensions are conservative, and their order does not matter.** A term without terms of
extensions is typed and run as if there were none. Any term is typed and run alike with the same
extensions in another order. -/
theorem extensions_conservative (es es' : List Extension) (l : Lifetime) (t : Term) :
    (t.opcodes = [] → Interchangeable es [] l t ∧
      Checker.checkProgram { extensions := es } l t = typecheck l t) ∧
    (es.Perm es' → Interchangeable es es' l t) := by
  refine ⟨fun h => ?_, fun h => (Term.SameForms.of_perm h).interchangeable l⟩
  have core : Interchangeable es [] l t := (Term.SameForms.of_core h).interchangeable l
  exact ⟨core, core.checkProgram {}⟩

/-- `{ let mut x = box 1; move x }` -/
def returnedBox : Term :=
  .block {} (.inside 1 (.root 0))
    [.letMut {} "x" {} (.box {} (.value {} (.int 1))), .access {} .move (.var "x")]

/-- A conditional without arms, which compares a pair with a variable. -/
def noArms : Term :=
  .ext {} 40 [.ext {} 30 [.value {} (.int 1), .value {} (.int 2)], .access {} .move (.var "x")]

theorem extensions_conservative_noArms :
    returnedBox.opcodes = [] ∧ Interchangeable Extension.all [] (.root 0) returnedBox ∧
    (Checker.checkProgram { extensions := Extension.all } (.root 0) returnedBox).result =
      .ok (.box .int) ∧
    (typecheck (.root 0) returnedBox).result = .ok (.box .int) ∧
    (∀ es ∈ [Extension.all, []],
      (@Machine.evaluate .ascending ⟨.smallStep, true, es⟩ {} (.root 0) returnedBox).result =
        .ok (⟨.empty, ⟨#[some ⟨.root 0, .int 1⟩, none]⟩⟩, .ref (.owned 0))) ∧
    List.Perm [Extension.tuples, .controlFlow] [.controlFlow, .tuples] ∧
    Interchangeable [.tuples, .controlFlow] [.controlFlow, .tuples] (.root 0) noArms ∧
    (∀ es ∈ [[Extension.tuples, .controlFlow], [.controlFlow, .tuples]],
      (Checker.checkProgram { extensions := es } (.root 0) noArms).result =
        .error ⟨.unknownTerm 40, {}⟩ ∧
      (@Machine.evaluate .ascending ⟨.bigStep, true, es⟩ {} (.root 0) noArms).result =
        .error (.stuck noArms.text)) := by
  have core := (extensions_conservative Extension.all [] (.root 0) returnedBox).1 rfl
  have order := (extensions_conservative [.tuples, .controlFlow] [.controlFlow, .tuples] (.root 0)
    noArms).2 (.swap _ _ _)
  have typed : (Checker.checkProgram { extensions := Extension.all } (.root 0) returnedBox).result =
      .ok (.box .int) := by decide +kernel
  refine ⟨rfl, core.1, typed, core.2 ▸ typed, ?_, .swap _ _ _, order, ?_⟩
  · decide +kernel
  · decide +kernel

/-- The empty tuple is a term of an extension, and no term of the core. -/
example :
    ((Checker.withExtensions {} Extension.all).apply .empty (.root 0)
      (.ext {} 30 [])).result.toBool = true ∧
    ((Checker.withExtensions {} []).apply .empty (.root 0)
      (.ext {} 30 [])).result.toBool = false := by
  decide

end Ownership
