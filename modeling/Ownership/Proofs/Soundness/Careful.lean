import Ownership.Proofs.Soundness.Spread
import Ownership.Proofs.Typing
import Ownership.Term.Parts

/-!
# What the checker passes over

The checker accepts terms that it has not looked at closely enough. A term is careful
(`Checker.careful`) if more tests are passed where the checker types it:

* A borrow of a place that goes on behind another borrow is of a place that has a type.
* An initialiser does not declare the very variable that it initialises.
* An assignment loses nothing that it has written: `write` and `spread` agree. This is only tested
  if `whole` is set, and needs no test in a term without components.

The tests are enough for a program to run without a fault. They refuse more than what faults, since
a mistake of the checker need not matter to what comes after it.

`Fit` adds what is asked of the text of a term.
-/

namespace Ownership

/-- Whether the result of a check, if there is one, passes a test. -/
def Traced.passes {ω ε α : Type} (x : Traced ω ε α) (test : α → Bool) : Bool :=
  match x.result with
  | .ok a => test a
  | .error _ => true

theorem Traced.passes_ok {ω ε α : Type} {x : Traced ω ε α} {test : α → Bool} {a : α}
    (h : x.passes test = true) (hx : x.result = .ok a) : test a = true := by
  rw [passes, hx] at h
  exact h

/-- A place that goes on behind a borrow has a type. -/
def typedBehind (env : Env) (p : Place) : Bool :=
  match env.get? p.name with
  | none => true
  | some slot =>
    match slot.ty.follow p.path with
    | .crossed _ _ (_ :: _) => (typeOf env p).toOption.isSome
    | _ => true

namespace Checker

mutual

/-- **The term passes the tests that the checker does not make**, where it is typed in `env`. -/
def careful (c : Checker) (whole : Bool) (env : Env) (l : Lifetime) : Term → Bool
  | .letMut _ x _ init => c.careful whole env l init && !init.declares.contains x
  | .assign _ p source =>
    c.careful whole env l source && (!whole || (c.apply env l source).passes fun (env, t) =>
      (spread c.variance env p t true).toOption == (write c.variance env p t true).toOption)
  | .block _ inner statements => c.carefulAll whole env inner statements
  | .borrow _ _ p => typedBehind env p
  | .box _ content => c.careful whole env l content
  | .access .. | .value .. => true
  | .ext _ opcode operands =>
    match formOf? c.extensions opcode, operands with
    | some .tuple, operands => c.carefulOperands whole l ⟨env, []⟩ operands
    | some (.conditional _), [lhs, rhs, onTrue, onFalse] =>
      c.careful whole env l lhs && (c.apply env l lhs).passes fun left =>
        let parked := Parked.park l [] left
        c.careful whole parked.env l rhs && (c.apply parked.env l rhs).passes fun right =>
          let env := (Parked.park l parked.names right).release.1
          c.careful whole env l onTrue && c.careful whole env l onFalse
    | _, _ => true

def carefulAll (c : Checker) (whole : Bool) (env : Env) (l : Lifetime) : List Term → Bool
  | [] => true
  | s :: ss =>
    c.careful whole env l s && (c.apply env l s).passes fun (env, _) => c.carefulAll whole env l ss

def carefulOperands (c : Checker) (whole : Bool) (l : Lifetime) (parked : Parked) :
    List Term → Bool
  | [] => true
  | t :: ts =>
    c.careful whole parked.env l t && (c.apply parked.env l t).passes fun judged =>
      c.carefulOperands whole l (Parked.park l parked.names judged) ts

end

end Checker

/-- What is asked of the text of a term under `l`. -/
structure Written (l : Lifetime) (t : Term) : Prop where
  plain : t.Plain
  nested : t.Nested l
  named : ∀ x ∈ t.names, ∀ i, x ≠ Env.temporary i
  declares : l.isRoot = true → t.declares = []

/-- **What is asked of a term** besides that the checker accepts it. -/
structure Fit (c : Checker) (whole : Bool) (Γ : Env) (l : Lifetime) (t : Term) : Prop
    extends Written l t where
  careful : c.careful whole Γ l t = true
  straight : whole = false → t.straight = true

variable {c : Checker} {Γ Γ' : Env} {l inner : Lifetime} {t : Term} {ts : List Term} {T : Ty}
variable {sp xs : Span} {x : String} {p : Place} {o : Nat} {whole : Bool}

namespace Written

theorem block (h : Written l (.block sp inner ts)) :
    (∃ i, inner = .inside i l) ∧ ∀ t ∈ ts, Written inner t := by
  obtain ⟨i, rfl⟩ := Lifetime.eq_inside h.nested.1
  refine ⟨⟨i, rfl⟩, fun t ht => ⟨h.plain.of_block ht, Term.allNested_iff.1 h.nested.2 t ht,
    fun x hx => h.named x ?_, nofun⟩⟩
  exact Term.mem_allNames.2 ⟨t, ht, hx⟩

theorem ext (h : Written l (.ext sp o ts)) : ∀ t ∈ ts, Written l t := by
  refine fun t ht => ⟨h.plain.of_ext ht, Term.allNested_iff.1 h.nested t ht,
    fun x hx => h.named x (Term.mem_allNames.2 ⟨t, ht, hx⟩), fun hr => ?_⟩
  have := h.declares hr
  rw [List.eq_nil_iff_forall_not_mem] at this ⊢
  exact fun x hx => this x (Term.mem_allDeclares.2 ⟨t, ht, hx⟩)

end Written

namespace Fit

attribute [local simp] Checker.careful Checker.carefulAll Checker.carefulOperands

theorem box (h : Fit c whole Γ l (.box sp t)) : Fit c whole Γ l t where
  plain := h.plain
  nested := h.nested
  named := h.named
  declares := h.declares
  careful := by simpa using h.careful
  straight := h.straight

theorem letMut (h : Fit c whole Γ l (.letMut sp x xs t)) :
    Fit c whole Γ l t ∧ l.isRoot = false ∧ x ∉ t.declares := by
  have hl : l.isRoot = false := by
    cases hr : l.isRoot with
    | false => rfl
    | true => cases h.declares hr
  have hc := h.careful
  simp only [Checker.careful, Bool.and_eq_true, Bool.not_eq_true', List.contains_eq_mem,
    decide_eq_false_iff_not] at hc
  exact ⟨⟨⟨h.plain, h.nested, fun y hy => h.named y (List.mem_cons_of_mem _ hy),
    fun hr => absurd hr (by simp [hl])⟩, hc.1, h.straight⟩, hl, hc.2⟩

theorem assign (h : Fit c whole Γ l (.assign sp p t)) : Fit c whole Γ l t ∧
    (whole = false → p.straight = true) ∧
    ∀ {Γ₁ T Γ' n}, (c.apply Γ l t).result = .ok (Γ₁, T) →
      n = crossings (Γ₁.weight + T.weight) (Γ₁.targets.length + T.borrowed.length) p →
      writeUpTo c.variance T n true Γ₁ p = .ok Γ' →
      spreadUpTo c.variance T whole n true Γ₁ p = .ok Γ' := by
  have hc := h.careful
  simp only [Checker.careful, Bool.and_eq_true] at hc
  have hs : whole = false → p.straight = true ∧ t.straight = true := fun hw => by
    simpa [Term.straight] using h.straight hw
  refine ⟨⟨⟨h.plain, h.nested, fun y hy => h.named y (List.mem_cons_of_mem _ hy), h.declares⟩,
    hc.1, fun hw => (hs hw).2⟩, fun hw => (hs hw).1, fun {Γ₁ T Γ' n} ht hn hw => ?_⟩
  cases whole with
  | false =>
    rw [spreadUpTo_false]
    exact hw
  | true =>
    subst hn
    simp only [Bool.not_true, Bool.false_or] at hc
    have he := Traced.passes_ok hc.2 ht
    simp only [beq_iff_eq] at he
    have he : (spread c.variance Γ₁ p T true).toOption = some Γ' :=
      he.trans (congrArg Except.toOption hw)
    cases hs : spread c.variance Γ₁ p T true with
    | error e =>
      rw [hs] at he
      cases he
    | ok Γ₂ =>
      rw [hs] at he
      cases he
      exact hs

theorem borrow {m : Bool} (h : Fit c whole Γ l (.borrow sp m p)) {s : Slot} {n : Bool}
    {ps : PlaceSet} {rest : List Selector} (hs : Γ.get? p.name = some s)
    (hf : s.ty.follow p.path = .crossed n ps rest) (hr : rest ≠ []) :
    ∃ T, typeOf Γ p = .ok T := by
  have hc := h.careful
  simp only [Checker.careful, typedBehind, hs, hf] at hc
  cases rest with
  | nil => exact absurd rfl hr
  | cons a rest =>
    cases ht : typeOf Γ p with
    | error e =>
      rw [ht] at hc
      cases hc
    | ok T => exact ⟨T, rfl⟩

theorem block (h : Fit c whole Γ l (.block sp inner ts)) :
    c.carefulAll whole Γ inner ts = true ∧ (whole = false → ∀ t ∈ ts, t.straight = true) :=
  ⟨by simpa using h.careful, fun hw => Term.allStraight_iff.1 (h.straight hw)⟩

theorem statement (hw : ∀ u ∈ t :: ts, Written l u)
    (hs : whole = false → ∀ u ∈ t :: ts, u.straight = true)
    (h : c.carefulAll whole Γ l (t :: ts) = true) : Fit c whole Γ l t ∧
      ∀ {Γ' T}, (c.apply Γ l t).result = .ok (Γ', T) → c.carefulAll whole Γ' l ts = true := by
  simp only [Checker.carefulAll, Bool.and_eq_true] at h
  refine ⟨⟨hw t List.mem_cons_self, h.1, fun hw => hs hw t List.mem_cons_self⟩, fun ht => ?_⟩
  have hc := Traced.passes_ok h.2 ht
  exact hc

theorem operands (h : Fit c whole Γ l (.ext sp o ts)) :
    whole = false → ∀ t ∈ ts, t.straight = true :=
  fun hw => Term.allStraight_iff.1 (h.straight hw)

theorem tuple (ho : formOf? c.extensions o = some .tuple) (h : Fit c whole Γ l (.ext sp o ts)) :
    c.carefulOperands whole l ⟨Γ, []⟩ ts = true := by
  have hc := h.careful
  unfold Checker.careful at hc
  rw [ho] at hc
  exact hc

theorem operand {P : Parked} (hw : ∀ u ∈ t :: ts, Written l u)
    (hs : whole = false → ∀ u ∈ t :: ts, u.straight = true)
    (h : c.carefulOperands whole l P (t :: ts) = true) : Fit c whole P.env l t ∧
      ∀ {judged}, (c.apply P.env l t).result = .ok judged →
        c.carefulOperands whole l (Parked.park l P.names judged) ts = true := by
  simp only [Checker.carefulOperands, Bool.and_eq_true] at h
  refine ⟨⟨hw t List.mem_cons_self, h.1, fun hw => hs hw t List.mem_cons_self⟩, fun ht => ?_⟩
  have hc := Traced.passes_ok h.2 ht
  exact hc

theorem conditional {equal : Bool} {lhs rhs onTrue onFalse : Term}
    (ho : formOf? c.extensions o = some (.conditional equal))
    (h : Fit c whole Γ l (.ext sp o [lhs, rhs, onTrue, onFalse])) : Fit c whole Γ l lhs ∧
      ∀ {left}, (c.apply Γ l lhs).result = .ok left →
        Fit c whole (Parked.park l [] left).env l rhs ∧
        ∀ {right}, (c.apply (Parked.park l [] left).env l rhs).result = .ok right →
          ∀ {Γ₁ ts}, (Γ₁, ts) = (Parked.park l (Parked.park l [] left).names right).release →
            Fit c whole Γ₁ l onTrue ∧ Fit c whole Γ₁ l onFalse := by
  have hw := h.toWritten.ext
  have hs := h.operands
  have hc := h.careful
  unfold Checker.careful at hc
  simp only [ho, Bool.and_eq_true] at hc
  refine ⟨⟨hw lhs (by simp), hc.1, fun h => hs h lhs (by simp)⟩, fun hl => ?_⟩
  have hc := Traced.passes_ok hc.2 hl
  simp only [Bool.and_eq_true] at hc
  refine ⟨⟨hw rhs (by simp), hc.1, fun h => hs h rhs (by simp)⟩, fun hr => ?_⟩
  have hc := Traced.passes_ok hc.2 hr
  simp only [Bool.and_eq_true] at hc
  rintro Γ₁ ts e
  rw [← e] at hc
  exact ⟨⟨hw onTrue (by simp), hc.1, fun h => hs h onTrue (by simp)⟩,
    ⟨hw onFalse (by simp), hc.2, fun h => hs h onFalse (by simp)⟩⟩

end Fit

end Ownership
