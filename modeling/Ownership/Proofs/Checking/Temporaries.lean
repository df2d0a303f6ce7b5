import Ownership.Machine.Evaluate
import Ownership.Proofs.Checking.Declarations
import Ownership.Proofs.Checking.Errors

/-!
# Temporaries and the variables of a program

An operand is parked in the same environment as the variables of the program, under a name that a
program can spell as well. So what is bound at a place in the program has been declared by the
program or is parked there (`Env.NamedIn`), and only the name tells one from the other.

* `Checker.used_declared`: **a place whose variable is no temporary is accepted only if the program
  declares the variable**, and refused as undeclared if not.
* `Checker.used_declared_parked`: an accepted program that reads an operand parked by the checker.
-/

namespace Ownership

open Relation

namespace Term

mutual

/-- The variables that are declared anywhere in the term, in blocks too. -/
def binds : Term → List String
  | letMut _ x _ t => x :: t.binds
  | assign _ _ t | box _ t => t.binds
  | block _ _ ts | ext _ _ ts => allBinds ts
  | access .. | borrow .. | value .. => []

def allBinds : List Term → List String
  | [] => []
  | t :: ts => t.binds ++ allBinds ts

end

theorem mem_allBinds {x : String} {ts : List Term} : x ∈ allBinds ts ↔ ∃ t ∈ ts, x ∈ t.binds := by
  induction ts with
  | nil => simp [allBinds]
  | cons t ts ih => simp [allBinds, ih]

/-- What a term declares where it stands is declared in it. -/
theorem declares_subset_binds (t : Term) : t.declares ⊆ t.binds := by
  intro x hx
  induction t with
  | letMut s y ys t ih =>
    rcases List.mem_cons.1 hx with rfl | hx
    · exact List.mem_cons_self
    · exact List.mem_cons_of_mem _ (ih hx)
  | assign s p t ih => exact ih hx
  | box s t ih => exact ih hx
  | ext s o ts ih =>
    obtain ⟨t, ht, hx⟩ := mem_allDeclares.1 hx
    exact mem_allBinds.2 ⟨t, ht, ih t ht hx⟩
  | block => cases hx
  | access => cases hx
  | borrow => cases hx
  | value => cases hx

/-- The place that the term reads, borrows or writes, apart from those in its parts. -/
def place? : Term → Option Place
  | assign _ p _ | access _ _ p | borrow _ _ p => some p
  | letMut .. | block .. | box .. | value .. | ext .. => none

mutual

/-- All places that are read, borrowed or written in the term. -/
def places : Term → List Place
  | assign _ p t => p :: t.places
  | access _ _ p | borrow _ _ p => [p]
  | letMut _ _ _ t | box _ t => t.places
  | block _ _ ts | ext _ _ ts => allPlaces ts
  | value .. => []

def allPlaces : List Term → List Place
  | [] => []
  | t :: ts => t.places ++ allPlaces ts

end

theorem mem_allPlaces {p : Place} {ts : List Term} :
    p ∈ allPlaces ts ↔ ∃ t ∈ ts, p ∈ t.places := by
  induction ts with
  | nil => simp [allPlaces]
  | cons t ts ih => simp [allPlaces, ih]

end Term

variable {c : Checker} {Γ Γ₁ Γ' : Env} {l root : Lifetime} {ls : List Lifetime}
variable {N D : List String} {T U : Ty} {t program : Term} {ts us : List Term} {x : String}
variable {P P' Q : Parked} {a b : Site} {p : Place}

namespace Env

/-- **What is bound is one of `N`, or a temporary.** -/
def NamedIn (N : List String) (Γ : Env) : Prop :=
  ∀ x s, Γ.get? x = some s → x ∈ N ∨ ∃ i, x = temporary i

theorem NamedIn.continues (h : Γ.NamedIn N) (hΓ : Continues l ls D Γ Γ') (hD : D ⊆ N) :
    Γ'.NamedIn N := by
  intro x s' hs'
  rcases hΓ.origin x s' hs' with ⟨s, hs, -⟩ | ⟨hx, -⟩
  · exact h x s hs
  · exact .inl (hD hx)

/-- A variable that is neither one of these nor a temporary is not bound. -/
theorem NamedIn.unbound (h : Γ.NamedIn N) (hn : x ∉ N) (hx : ∀ i, x ≠ temporary i) :
    Γ.get? x = none := by
  cases hs : Γ.get? x with
  | none => rfl
  | some s =>
    rcases h x s hs with hm | ⟨i, e⟩
    · exact absurd hm hn
    · exact absurd e (hx i)

/-- An operand is parked under the name of a temporary. -/
theorem NamedIn.park {judged : Env × Ty} (h : judged.1.NamedIn N) (l : Lifetime)
    (names : List String) : (Parked.park l names judged).env.NamedIn N := by
  intro x s hs
  rcases NameMap.get?_insert_some hs with ⟨rfl, -⟩ | ⟨-, hs⟩
  · exact .inr (freshName_spec judged.1).1
  · exact h x s hs

theorem NamedIn.eraseAll (h : Γ.NamedIn N) (names : List String) : NamedIn N (Γ.eraseAll names) :=
  fun x s hs => h x s (NameMap.get?_eraseAll_some.1 hs).2

end Env

namespace Checker

theorem namedIn_apply (h : Γ.NamedIn N) (ht : t.binds ⊆ N)
    (hr : (c.apply Γ l t).result = .ok (Γ', T)) : Γ'.NamedIn N :=
  h.continues (continues_apply t hr) (List.Subset.trans t.declares_subset_binds ht)

theorem namedIn_sequence (h : Γ.NamedIn N) (hts : ∀ t ∈ ts, t.binds ⊆ N)
    (hr : (c.sequence Γ l T ts).result = .ok (Γ', U)) : Γ'.NamedIn N := by
  induction ts generalizing Γ T with
  | nil =>
    obtain ⟨rfl, -⟩ := sequence_nil hr
    exact h
  | cons t ts ih =>
    obtain ⟨Γ₁, T₁, h₁, hr⟩ := sequence_cons hr
    exact ih (namedIn_apply h (hts t List.mem_cons_self) h₁)
      (fun u hu => hts u (List.mem_cons_of_mem _ hu)) hr

theorem namedIn_park (h : P.env.NamedIn N) (hts : ∀ t ∈ ts, t.binds ⊆ N)
    (hr : (c.park l P ts).result = .ok P') : P'.env.NamedIn N := by
  induction ts generalizing P with
  | nil =>
    cases park_nil hr
    exact h
  | cons t ts ih =>
    obtain ⟨⟨Γ₁, T₁⟩, h₁, hr⟩ := park_cons hr
    exact ih ((namedIn_apply h (hts t List.mem_cons_self) h₁).park _ _)
      (fun u hu => hts u (List.mem_cons_of_mem _ hu)) hr

/-- **Where a part is typed**, it and what is bound there come from the program. -/
structure Declared (N : List String) (a : Site) : Prop where
  term : a.term.binds ⊆ N
  env : a.env.NamedIn N

namespace Declared

theorem statements {sp : Span} {inner : Lifetime} (h : Declared N ⟨Γ, l, .block sp inner ts⟩) :
    ∀ t ∈ ts, t.binds ⊆ N :=
  fun t ht _ hx => h.term (Term.mem_allBinds.2 ⟨t, ht, hx⟩)

theorem operands {sp : Span} {o : Nat} (h : Declared N ⟨Γ, l, .ext sp o ts⟩) :
    ∀ t ∈ ts, t.binds ⊆ N :=
  fun t ht _ hx => h.term (Term.mem_allBinds.2 ⟨t, ht, hx⟩)

/-- The operands of a conditional are parked and released, before either arm is typed. -/
theorem arm {sp : Span} {o : Nat} {lhs rhs onTrue onFalse : Term} {left right : Env × Ty}
    (h : Declared N ⟨Γ, l, .ext sp o [lhs, rhs, onTrue, onFalse]⟩)
    (hl : (c.apply Γ l lhs).result = .ok left)
    (hr : (c.apply (Parked.park l [] left).env l rhs).result = .ok right)
    (ht : t ∈ [lhs, rhs, onTrue, onFalse]) :
    Declared N ⟨(Parked.park l (Parked.park l [] left).names right).release.1, l, t⟩ := by
  have hleft : (Parked.park l [] left).env.NamedIn N :=
    (namedIn_apply h.env (h.operands lhs (by simp)) hl).park l []
  have hright := (namedIn_apply hleft (h.operands rhs (by simp)) hr).park l
    (Parked.park l [] left).names
  exact ⟨h.operands t ht, hright.eraseAll _⟩

theorem calls (h : Declared N a) (hab : c.Calls a b) : Declared N b := by
  cases hab with
  | init => exact ⟨fun x hx => h.term (List.mem_cons_of_mem _ hx), h.env⟩
  | source => exact ⟨h.term, h.env⟩
  | content => exact ⟨h.term, h.env⟩
  | statement hs => exact ⟨h.statements _ (by simp),
      namedIn_sequence h.env (fun u hu => h.statements u (by simp [hu])) hs⟩
  | operand _ hs =>
    exact ⟨h.operands _ (by simp), namedIn_park h.env (fun u hu => h.operands u (by simp [hu])) hs⟩
  | left => exact ⟨h.operands _ (by simp), h.env⟩
  | right _ hx =>
    have hleft := namedIn_apply h.env (h.operands _ (by simp)) hx
    exact ⟨h.operands _ (by simp), hleft.park _ []⟩
  | onTrue _ hx hy hrel =>
    cases hrel
    exact h.arm hx hy (by simp)
  | onFalse _ hx hy hrel =>
    cases hrel
    exact h.arm hx hy (by simp)

theorem visits (h : Declared N a) (hab : c.Visits a b) : Declared N b := by
  induction hab with
  | refl => exact h
  | tail _ hstep ih => exact ih.calls hstep

/-- A variable that is no temporary is bound only if it has been declared. -/
theorem mem (h : Declared N a) (hx : ∀ i, x ≠ Env.temporary i) (hn : x ∉ N) :
    a.env.get? x = none := h.env.unbound hn hx

end Declared

/-- Reading, borrowing and writing a place each begin with the look-up of its variable. -/
theorem refused_of_unbound (hp : a.term.place? = some p) (hx : a.env.get? p.name = none) :
    c.Refused a ⟨.undeclared p.name, a.term.span⟩ := by
  have hd : a.env.declared p = .error (.undeclared p.name) := by rw [Env.declared, hx]
  obtain ⟨Γ, l, t⟩ := a
  cases t with
  | assign s q t =>
    cases hp
    simp [Refused, apply, hd, blame, Term.span]
  | access s k q =>
    cases hp
    simp [Refused, apply, read, hd, blame, Term.span]
  | borrow s m q =>
    cases hp
    simp [Refused, apply, borrow, hd, blame, Term.span]
  | _ => cases hp

/-! ### All parts of an accepted term -/

/-- The statements before another one are accepted. -/
theorem sequence_prefix {judged : Env × Ty}
    (h : (c.sequence Γ l T (ts ++ us)).result = .ok judged) :
    ∃ Γ₁ T₁, (c.sequence Γ l T ts).result = .ok (Γ₁, T₁) := by
  induction ts generalizing Γ T with
  | nil => exact ⟨Γ, T, by simp only [sequence, Traced.result_pure]⟩
  | cons t ts ih =>
    obtain ⟨Γ₁, T₁, h₁, h⟩ := sequence_cons h
    rw [sequence_of_cons h₁]
    exact ih h

theorem park_prefix (h : (c.park l P (ts ++ us)).result = .ok Q) :
    ∃ P', (c.park l P ts).result = .ok P' ∧ (c.park l P' us).result = .ok Q := by
  induction ts generalizing P with
  | nil => exact ⟨P, by simp only [park, Traced.result_pure], h⟩
  | cons t ts ih =>
    obtain ⟨judged, h₁, h⟩ := park_cons h
    rw [park_of_cons h₁]
    exact ih h

/-- Every statement of a block that is accepted is typed. -/
theorem calls_of_mem_block {sp : Span} {inner : Lifetime}
    (h : c.Accepts ⟨Γ, l, .block sp inner ts⟩) (ht : t ∈ ts) :
    ∃ Γ₁, c.Calls ⟨Γ, l, .block sp inner ts⟩ ⟨Γ₁, inner, t⟩ := by
  obtain ⟨⟨Γ', T⟩, h⟩ := h
  obtain ⟨Γ₂, h₂, -⟩ := apply_block h
  obtain ⟨ss, us, rfl⟩ := List.append_of_mem ht
  obtain ⟨Γ₁, T₁, h₁⟩ := sequence_prefix h₂
  exact ⟨Γ₁, .statement h₁⟩

/-- And every operand, in both arms of a conditional too. -/
theorem calls_of_mem_ext {sp : Span} {o : Nat} (h : c.Accepts ⟨Γ, l, .ext sp o ts⟩) (ht : t ∈ ts) :
    ∃ Γ₁, c.Calls ⟨Γ, l, .ext sp o ts⟩ ⟨Γ₁, l, t⟩ := by
  obtain ⟨⟨Γ', T⟩, h⟩ := h
  rcases apply_ext h with hform | ⟨e, lhs, rhs, onTrue, onFalse, hform, rfl⟩
  · obtain ⟨Q, hQ, -⟩ := apply_tuple hform h
    obtain ⟨ss, us, rfl⟩ := List.append_of_mem ht
    obtain ⟨P, hP, -⟩ := park_prefix hQ
    exact ⟨P.env, .operand hform hP⟩
  · obtain ⟨left, right, Γ₁, ts, tt, ff, hl, hr, hrel, hc, htt, hff, -⟩ :=
      apply_conditional hform h
    simp only [List.mem_cons, List.not_mem_nil, or_false] at ht
    rcases ht with rfl | rfl | rfl | rfl
    · exact ⟨_, .left hform⟩
    · exact ⟨_, .right hform hl⟩
    · exact ⟨_, .onTrue hform hl hr hrel hc⟩
    · exact ⟨_, .onFalse hform hl hr hrel hc htt⟩

/-- **All places in a term that is accepted are looked at.** -/
theorem visits_place (h : c.Accepts ⟨Γ, l, t⟩) (hp : p ∈ t.places) :
    ∃ b, c.Visits ⟨Γ, l, t⟩ b ∧ b.term.place? = some p := by
  induction t generalizing Γ l with
  | letMut s x xs t ih =>
    obtain ⟨⟨Γ', T⟩, hr⟩ := id h
    have hcall : c.Calls ⟨Γ, l, .letMut s x xs t⟩ ⟨Γ, l, t⟩ := .init (apply_letMut hr).1
    obtain ⟨b, hb, e⟩ := ih (hcall.accepted h) hp
    exact ⟨b, .head hcall hb, e⟩
  | assign s q t ih =>
    rcases List.mem_cons.1 hp with rfl | hp
    · exact ⟨_, .refl, rfl⟩
    · obtain ⟨⟨Γ', T⟩, hr⟩ := id h
      obtain ⟨slot, -, -, hs, -⟩ := apply_assign hr
      have hcall : c.Calls ⟨Γ, l, .assign s q t⟩ ⟨Γ, l, t⟩ := .source (declared_ok.2 hs)
      obtain ⟨b, hb, e⟩ := ih (hcall.accepted h) hp
      exact ⟨b, .head hcall hb, e⟩
  | box s t ih =>
    have hcall : c.Calls ⟨Γ, l, .box s t⟩ ⟨Γ, l, t⟩ := .content
    obtain ⟨b, hb, e⟩ := ih (hcall.accepted h) hp
    exact ⟨b, .head hcall hb, e⟩
  | block s inner ts ih =>
    obtain ⟨t, ht, hp⟩ := Term.mem_allPlaces.1 hp
    obtain ⟨Γ₁, hcall⟩ := calls_of_mem_block h ht
    obtain ⟨b, hb, e⟩ := ih t ht (hcall.accepted h) hp
    exact ⟨b, .head hcall hb, e⟩
  | ext s o ts ih =>
    obtain ⟨t, ht, hp⟩ := Term.mem_allPlaces.1 hp
    obtain ⟨Γ₁, hcall⟩ := calls_of_mem_ext h ht
    obtain ⟨b, hb, e⟩ := ih t ht (hcall.accepted h) hp
    exact ⟨b, .head hcall hb, e⟩
  | access s k q =>
    cases List.mem_singleton.1 hp
    exact ⟨_, .refl, rfl⟩
  | borrow s m q =>
    cases List.mem_singleton.1 hp
    exact ⟨_, .refl, rfl⟩
  | value => cases hp

/-! ### Undeclared variables -/

/-- **Only declared variables are used**, up to the names of temporaries. Wherever a place is read,
borrowed or written in a program, in a tuple or in a conditional too, its variable has been declared
by the program if this is accepted, and if the program does not declare it the place is refused as
undeclared. So a program is not accepted if there is such a place anywhere in it. -/
theorem used_declared (c : Checker) (root : Lifetime) (program : Term) :
    (∀ b p, c.Visits ⟨.empty, root, program⟩ b → b.term.place? = some p →
      (∀ i, p.name ≠ Env.temporary i) →
        (c.Accepts b → p.name ∈ program.binds) ∧
        (p.name ∉ program.binds → c.Refused b ⟨.undeclared p.name, b.term.span⟩)) ∧
    ∀ p ∈ program.places, (∀ i, p.name ≠ Env.temporary i) → p.name ∉ program.binds →
      ¬ c.Accepts ⟨.empty, root, program⟩ := by
  have start : Declared program.binds ⟨.empty, root, program⟩ := ⟨List.Subset.refl _, nofun⟩
  have refused : ∀ b p, c.Visits ⟨.empty, root, program⟩ b → b.term.place? = some p →
      (∀ i, p.name ≠ Env.temporary i) → p.name ∉ program.binds →
      c.Refused b ⟨.undeclared p.name, b.term.span⟩ :=
    fun b p hv hp hx hn => refused_of_unbound hp ((start.visits hv).mem hx hn)
  have accepted : ∀ b p, c.Visits ⟨.empty, root, program⟩ b → b.term.place? = some p →
      (∀ i, p.name ≠ Env.temporary i) → c.Accepts b → p.name ∈ program.binds := by
    intro b p hv hp hx ⟨judged, ha⟩
    by_contra hn
    cases ha.symm.trans (refused b p hv hp hx hn)
  refine ⟨fun b p hv hp hx => ⟨accepted b p hv hp hx, refused b p hv hp hx⟩, ?_⟩
  intro p hp hx hn ha
  obtain ⟨b, hv, e⟩ := visits_place ha hp
  exact hn (accepted b p hv e hx (hv.accepted ha))

/-- `{ let mut x = 1; (x, n) }` -/
def pairWith (n : String) : Term :=
  .block {} (.inside 1 (.root 0)) [.letMut {} "x" {} (.value {} (.int 1)),
    .ext {} 30 [.access {} .inferred (.var "x"), .access {} .inferred (.var n)]]

/-- The first element of the tuple in `pairWith` is parked. -/
theorem parksFirst (n : String) :
    (Checker.park { extensions := Extension.all } (.inside 1 (.root 0))
      ⟨.declaring (.inside 1 (.root 0)) [("x", .int)], []⟩
      ([.access {} .inferred (.var "x"), .access {} .inferred (.var n)].take 1)).result =
      .ok ⟨(Env.declaring (.inside 1 (.root 0)) [("x", .int)]).insert "$tmp0" ⟨.int, .root 0⟩,
        ["$tmp0"]⟩ := rfl

theorem used_declared_pair :
    Checker.Visits { extensions := Extension.all } ⟨.empty, .root 0, pairWith "y"⟩
      ⟨.declaring (.inside 1 (.root 0)) [("x", .int)], .inside 1 (.root 0),
        .access {} .inferred (.var "x")⟩ ∧
    "x" ∈ (pairWith "y").binds ∧
    Checker.Visits { extensions := Extension.all } ⟨.empty, .root 0, pairWith "y"⟩
      ⟨(Env.declaring (.inside 1 (.root 0)) [("x", .int)]).insert "$tmp0" ⟨.int, .root 0⟩,
        .inside 1 (.root 0), .access {} .inferred (.var "y")⟩ ∧
    "y" ∉ (pairWith "y").binds ∧
    Checker.Refused { extensions := Extension.all }
      ⟨(Env.declaring (.inside 1 (.root 0)) [("x", .int)]).insert "$tmp0" ⟨.int, .root 0⟩,
        .inside 1 (.root 0), .access {} .inferred (.var "y")⟩ ⟨.undeclared "y", {}⟩ ∧
    ¬ Checker.Accepts { extensions := Extension.all } ⟨.empty, .root 0, pairWith "y"⟩ := by
  have hx : Checker.Visits { extensions := Extension.all } ⟨.empty, .root 0, pairWith "y"⟩
      ⟨.declaring (.inside 1 (.root 0)) [("x", .int)], .inside 1 (.root 0),
        .access {} .inferred (.var "x")⟩ :=
    .tail (.single (.statementAt 1 rfl rfl)) (.operandAt 0 rfl rfl rfl)
  have hy : Checker.Visits { extensions := Extension.all } ⟨.empty, .root 0, pairWith "y"⟩
      ⟨(Env.declaring (.inside 1 (.root 0)) [("x", .int)]).insert "$tmp0" ⟨.int, .root 0⟩,
        .inside 1 (.root 0), .access {} .inferred (.var "y")⟩ :=
    .tail (.single (.statementAt 1 rfl rfl)) (.operandAt 1 rfl rfl (parksFirst "y"))
  have named : ∀ n ∈ ["x", "y"], ∀ i, n ≠ Env.temporary i := fun n hn => Env.ne_temporary (by
    revert n
    decide)
  have hn : "y" ∉ (pairWith "y").binds := by decide
  obtain ⟨sites, program⟩ := used_declared { extensions := Extension.all } (.root 0) (pairWith "y")
  exact ⟨hx, (sites _ (.var "x") hx rfl (named "x" (by simp))).1 ⟨_, rfl⟩, hy, hn,
    (sites _ (.var "y") hy rfl (named "y" (by simp))).2 hn,
    program (.var "y") (by decide) (named "y" (by simp)) hn⟩

/-- **A program reads what the checker has parked.** `{ let mut x = 1; (x, $tmp0) }` declares no
`$tmp0` and is accepted: the first element is parked under that name. The machine knows no such
variable, so the program that has been accepted faults. -/
theorem used_declared_parked :
    (Checker.checkProgram { extensions := Extension.all } (.root 0) (pairWith "$tmp0")).result =
      .ok (.compound [.int, .int]) ∧
    Checker.Visits { extensions := Extension.all } ⟨.empty, .root 0, pairWith "$tmp0"⟩
      ⟨(Env.declaring (.inside 1 (.root 0)) [("x", .int)]).insert "$tmp0" ⟨.int, .root 0⟩,
        .inside 1 (.root 0), .access {} .inferred (.var "$tmp0")⟩ ∧
    Checker.Accepts { extensions := Extension.all }
      ⟨(Env.declaring (.inside 1 (.root 0)) [("x", .int)]).insert "$tmp0" ⟨.int, .root 0⟩,
        .inside 1 (.root 0), .access {} .inferred (.var "$tmp0")⟩ ∧
    "$tmp0" ∉ (pairWith "$tmp0").binds ∧
    ∀ strategy, (Machine.evaluate ⟨strategy, true, Extension.all⟩ {} (.root 0)
      (pairWith "$tmp0")).result = .error (.unboundVariable "$tmp0") :=
  ⟨rfl, .tail (.single (.statementAt 1 rfl rfl)) (.operandAt 1 rfl rfl (parksFirst "$tmp0")),
    ⟨_, rfl⟩, by decide, fun strategy => by cases strategy <;> rfl⟩

end Checker

end Ownership
