import Mathlib.Logic.Relation
import Ownership.Proofs.Typing

/-!
# What is typed on the way

While a program is typed, its parts are typed in the environments that the parts before them have
left. `Checker.Calls` is one step from a term to a part of it, with the premises of the rule of the
term, and `Checker.Visits` any number of them. An environment is reached if a part of the program
is typed in it or leaves it (`Checker.Reaches`).

* `Checker.mem_sites`: **all that is visited can be listed**.
-/

namespace Ownership

open Relation

/-- A term to be typed under a lifetime in an environment. -/
structure Site where
  env : Env
  lifetime : Lifetime
  term : Term

/-- The environment with variables of these types, all declared under `l`. -/
def Env.declaring (l : Lifetime) (types : List (String × Ty)) : Env :=
  types.foldl (fun Γ e => Γ.insert e.1 ⟨e.2, l⟩) .empty

namespace Checker

/-- **The part of a term is typed on the way**, after the parts before it have been accepted. -/
inductive Calls (c : Checker) : Site → Site → Prop where
  | init {Γ : Env} {l : Lifetime} {sp xs : Span} {x : String} {t : Term} :
      Γ.contains x = false → Calls c ⟨Γ, l, .letMut sp x xs t⟩ ⟨Γ, l, t⟩
  | source {Γ : Env} {l : Lifetime} {sp : Span} {p : Place} {t : Term} {s : Slot} :
      Γ.declared p = .ok s → Calls c ⟨Γ, l, .assign sp p t⟩ ⟨Γ, l, t⟩
  | content {Γ : Env} {l : Lifetime} {sp : Span} {t : Term} :
      Calls c ⟨Γ, l, .box sp t⟩ ⟨Γ, l, t⟩
  | statement {Γ Γ₁ : Env} {l inner : Lifetime} {sp : Span} {ss us : List Term} {t : Term}
      {T : Ty} : (c.sequence Γ inner .unit ss).result = .ok (Γ₁, T) →
      Calls c ⟨Γ, l, .block sp inner (ss ++ t :: us)⟩ ⟨Γ₁, inner, t⟩
  | operand {Γ : Env} {l : Lifetime} {sp : Span} {o : Nat} {ss us : List Term} {t : Term}
      {P : Parked} : formOf? c.extensions o = some .tuple →
      (c.park l ⟨Γ, []⟩ ss).result = .ok P →
      Calls c ⟨Γ, l, .ext sp o (ss ++ t :: us)⟩ ⟨P.env, l, t⟩
  | left {Γ : Env} {l : Lifetime} {sp : Span} {o : Nat} {e : Bool} {lhs rhs tt ff : Term} :
      formOf? c.extensions o = some (.conditional e) →
      Calls c ⟨Γ, l, .ext sp o [lhs, rhs, tt, ff]⟩ ⟨Γ, l, lhs⟩
  | right {Γ : Env} {l : Lifetime} {sp : Span} {o : Nat} {e : Bool} {lhs rhs tt ff : Term}
      {x : Env × Ty} : formOf? c.extensions o = some (.conditional e) →
      (c.apply Γ l lhs).result = .ok x →
      Calls c ⟨Γ, l, .ext sp o [lhs, rhs, tt, ff]⟩ ⟨(Parked.park l [] x).env, l, rhs⟩
  | onTrue {Γ Γ₁ : Env} {l : Lifetime} {sp : Span} {o : Nat} {e : Bool} {lhs rhs tt ff : Term}
      {x y : Env × Ty} {ts : List Ty} : formOf? c.extensions o = some (.conditional e) →
      (c.apply Γ l lhs).result = .ok x → (c.apply (Parked.park l [] x).env l rhs).result = .ok y →
      (Γ₁, ts) = (Parked.park l (Parked.park l [] x).names y).release →
      c.comparable Γ₁ ts = .ok () → Calls c ⟨Γ, l, .ext sp o [lhs, rhs, tt, ff]⟩ ⟨Γ₁, l, tt⟩
  | onFalse {Γ Γ₁ : Env} {l : Lifetime} {sp : Span} {o : Nat} {e : Bool} {lhs rhs tt ff : Term}
      {x y z : Env × Ty} {ts : List Ty} : formOf? c.extensions o = some (.conditional e) →
      (c.apply Γ l lhs).result = .ok x → (c.apply (Parked.park l [] x).env l rhs).result = .ok y →
      (Γ₁, ts) = (Parked.park l (Parked.park l [] x).names y).release →
      c.comparable Γ₁ ts = .ok () → (c.apply Γ₁ l tt).result = .ok z →
      Calls c ⟨Γ, l, .ext sp o [lhs, rhs, tt, ff]⟩ ⟨Γ₁, l, ff⟩

/-- **The second site is visited** while the first one is typed. -/
abbrev Visits (c : Checker) : Site → Site → Prop := ReflTransGen c.Calls

/-- **The environment is passed through** while the site is typed: some part is typed in it, or
leaves it behind. -/
def Reaches (c : Checker) (a : Site) (Γ : Env) : Prop :=
  ∃ b, c.Visits a b ∧ (Γ = b.env ∨ ∃ T, (c.apply b.env b.lifetime b.term).result = .ok (Γ, T))

variable {c : Checker} {Γ Γ₁ : Env} {l : Lifetime} {T T₁ : Ty} {t : Term} {ts : List Term}
variable {P : Parked}

theorem sequence_of_cons (h : (c.apply Γ l t).result = .ok (Γ₁, T₁)) :
    (c.sequence Γ l T (t :: ts)).result = (c.sequence Γ₁ l T₁ ts).result := by
  simp only [sequence, Traced.result_bind, h, Traced.ok_bind]

theorem sequence_of_append (h : (c.sequence Γ l T ts).result = .ok (Γ₁, T₁)) (us : List Term) :
    (c.sequence Γ l T (ts ++ us)).result = (c.sequence Γ₁ l T₁ us).result := by
  induction ts generalizing Γ T with
  | nil =>
    obtain ⟨rfl, rfl⟩ := sequence_nil h
    rfl
  | cons t ts ih =>
    obtain ⟨Γ₂, T₂, h₂, h⟩ := sequence_cons h
    rw [List.cons_append, sequence_of_cons h₂, ih h]

theorem park_of_cons {x : Env × Ty} (h : (c.apply P.env l t).result = .ok x) :
    (c.park l P (t :: ts)).result = (c.park l (Parked.park l P.names x) ts).result := by
  simp only [park, Traced.result_bind, h, Traced.ok_bind]

theorem park_last {x : Env × Ty} (h : (c.apply P.env l t).result = .ok x) :
    (c.park l P [t]).result = .ok (Parked.park l P.names x) := by
  rw [park_of_cons h]
  simp only [park, Traced.result_pure]

/-- The statement at position `i` is typed in what the ones before it leave. -/
theorem Calls.statementAt {sp : Span} {inner : Lifetime} (i : Nat) (ht : ts[i]? = some t)
    (h : (c.sequence Γ inner .unit (ts.take i)).result = .ok (Γ₁, T₁)) :
    c.Calls ⟨Γ, l, .block sp inner ts⟩ ⟨Γ₁, inner, t⟩ := by
  obtain ⟨hi, e⟩ := List.getElem?_eq_some_iff.1 ht
  have split : ts.take i ++ t :: ts.drop (i + 1) = ts := by
    rw [← e, List.getElem_cons_drop, List.take_append_drop]
  have hcall : c.Calls ⟨Γ, l, .block sp inner (ts.take i ++ t :: ts.drop (i + 1))⟩ ⟨Γ₁, inner, t⟩ :=
    .statement h
  rwa [split] at hcall

/-- The operand at position `i` is typed where the ones before it are parked. -/
theorem Calls.operandAt {sp : Span} {o : Nat} (i : Nat) (ht : ts[i]? = some t)
    (hform : formOf? c.extensions o = some .tuple)
    (h : (c.park l ⟨Γ, []⟩ (ts.take i)).result = .ok P) :
    c.Calls ⟨Γ, l, .ext sp o ts⟩ ⟨P.env, l, t⟩ := by
  obtain ⟨hi, e⟩ := List.getElem?_eq_some_iff.1 ht
  have split : ts.take i ++ t :: ts.drop (i + 1) = ts := by
    rw [← e, List.getElem_cons_drop, List.take_append_drop]
  have hcall : c.Calls ⟨Γ, l, .ext sp o (ts.take i ++ t :: ts.drop (i + 1))⟩ ⟨P.env, l, t⟩ :=
    .operand hform h
  rwa [split] at hcall

/-! ### Lists of sites -/

/-- Goes on with what has been accepted. -/
def after {α : Type} (x : Check α) (next : α → List Site) : List Site :=
  match x.result with
  | .ok a => next a
  | .error _ => []

theorem after_ok {α : Type} {x : Check α} {a : α} {next : α → List Site} (h : x.result = .ok a) :
    after x next = next a := by
  rw [after, h]

mutual

/-- **The sites that are visited** on the way through a term. -/
def sites (c : Checker) (Γ : Env) (l : Lifetime) (term : Term) : List Site :=
  ⟨Γ, l, term⟩ :: match term with
    | .letMut _ _ _ init => c.sites Γ l init
    | .assign _ _ source => c.sites Γ l source
    | .block _ inner statements => c.sitesInSequence Γ inner statements
    | .box _ content => c.sites Γ l content
    | .access .. | .borrow .. | .value .. => []
    | .ext _ opcode operands =>
      match formOf? c.extensions opcode, operands with
      | some .tuple, operands => c.sitesOfOperands l ⟨Γ, []⟩ operands
      | some (.conditional _), [lhs, rhs, onTrue, onFalse] =>
        c.sites Γ l lhs ++ after (c.apply Γ l lhs) fun left =>
          let parked := Parked.park l [] left
          c.sites parked.env l rhs ++ after (c.apply parked.env l rhs) fun right =>
            let env := (Parked.park l parked.names right).release.1
            c.sites env l onTrue ++ c.sites env l onFalse
      | _, _ => []

def sitesInSequence (c : Checker) (Γ : Env) (l : Lifetime) : List Term → List Site
  | [] => []
  | t :: ts =>
    c.sites Γ l t ++ after (c.apply Γ l t) fun judged =>
      c.sitesInSequence judged.1 l ts

def sitesOfOperands (c : Checker) (l : Lifetime) (P : Parked) : List Term → List Site
  | [] => []
  | t :: ts =>
    c.sites P.env l t ++ after (c.apply P.env l t) fun judged =>
      c.sitesOfOperands l (Parked.park l P.names judged) ts

end

variable {a b : Site} {us : List Term} {sp : Span} {o : Nat}

theorem mem_sites_self (a : Site) : a ∈ c.sites a.env a.lifetime a.term := by
  rw [sites.eq_def]
  exact List.mem_cons_self

theorem sites_subset_sequence (h : (c.sequence Γ l T ts).result = .ok (Γ₁, T₁)) :
    c.sites Γ₁ l t ⊆ c.sitesInSequence Γ l (ts ++ t :: us) := by
  induction ts generalizing Γ T with
  | nil =>
    obtain ⟨rfl, rfl⟩ := sequence_nil h
    exact List.subset_append_left ..
  | cons u ts ih =>
    obtain ⟨Γ₂, T₂, h₂, h⟩ := sequence_cons h
    rw [List.cons_append, sitesInSequence, after_ok h₂]
    exact List.Subset.trans (ih h) (List.subset_append_right ..)

theorem sites_subset_operands {P' : Parked} (h : (c.park l P ts).result = .ok P') :
    c.sites P'.env l t ⊆ c.sitesOfOperands l P (ts ++ t :: us) := by
  induction ts generalizing P with
  | nil =>
    cases park_nil h
    exact List.subset_append_left ..
  | cons u ts ih =>
    obtain ⟨x, hx, h⟩ := park_cons h
    rw [List.cons_append, sitesOfOperands, after_ok hx]
    exact List.Subset.trans (ih h) (List.subset_append_right ..)

/-- The sites on the way through a part of a term are on the way through the term. -/
theorem sites_subset (h : c.Calls a b) :
    c.sites b.env b.lifetime b.term ⊆ c.sites a.env a.lifetime a.term := by
  cases h with
  | init => exact List.subset_cons_self ..
  | source => exact List.subset_cons_self ..
  | content => exact List.subset_cons_self ..
  | statement hs =>
    rw [sites.eq_def c _ _ (.block ..)]
    exact List.Subset.trans (sites_subset_sequence hs) (List.subset_cons_self ..)
  | operand hform hs =>
    rw [sites.eq_def c _ _ (.ext ..)]
    simp only [hform]
    exact List.Subset.trans (sites_subset_operands hs) (List.subset_cons_self ..)
  | left hform =>
    rw [sites.eq_def c _ _ (.ext ..)]
    simp only [hform]
    intro d hd
    simp [hd]
  | right hform hx =>
    rw [sites.eq_def c _ _ (.ext ..)]
    simp only [hform, after_ok hx]
    intro d hd
    simp [hd]
  | onTrue hform hx hy hrel =>
    rw [sites.eq_def c _ _ (.ext ..)]
    simp only [hform, after_ok hx, after_ok hy, ← hrel]
    intro d hd
    simp [hd]
  | onFalse hform hx hy hrel =>
    rw [sites.eq_def c _ _ (.ext ..)]
    simp only [hform, after_ok hx, after_ok hy, ← hrel]
    intro d hd
    simp [hd]

/-- **What is visited is on the list.** -/
theorem mem_sites (h : c.Visits a b) : b ∈ c.sites a.env a.lifetime a.term := by
  induction h using ReflTransGen.head_induction_on with
  | refl => exact mem_sites_self b
  | head hstep _ ih => exact sites_subset hstep ih

end Checker

end Ownership
