import Mathlib.Logic.Function.Basic
import Ownership.Proofs.Checking.Leaves
import Ownership.Proofs.Checking.Shapes
import Ownership.Proofs.Checking.Sites

/-!
# Stable properties

A property of environments is stable if every rule of the checker keeps it, at sites that pass some
tests (`Stable`). It may speak of the shapes of the variables and of the type of what has been
evaluated last. What is stable holds wherever the checker comes.

* `Env.Shaped.write`: **no rule changes the shape of a variable.**
* `Stable.apply`: what is stable holds of what a term leaves behind.
* `Stable.visits`: **what is stable holds at every site that is visited.**
-/

namespace Ownership

open Relation

variable {c : Checker} {variance : Variance} {Γ Γ₁ Γ₂ Γ' J lhs rhs : Env} {l inner : Lifetime}
variable {K N N' : List String} {T U T₁ T₂ : Ty} {t left right onTrue onFalse : Term}
variable {ts ss us : List Term} {s s' : Slot} {m e strong : Bool} {p q : Place} {x k : String}
variable {sp xs : Span} {o n : Nat} {P P' : Parked} {a b : Site}

/-! ### Shapes after a rule -/

namespace Env.Shaped

variable {σ σ₁ σ₂ : String → Shape} {f : Shape}

theorem read {kind : AccessKind} (h : Γ.Shaped σ) (hr : c.read Γ kind p = .ok (Γ', T)) :
    Γ'.Shaped σ ∧ T.Fits σ ((σ p.name).part p.path) := by
  obtain ⟨s, hs, -, ht, ⟨-, rfl⟩ | ⟨-, -, u, hf, rfl⟩⟩ := Checker.read_ok hr
  · exact ⟨h, h.typeOf ht⟩
  · refine ⟨fun x s' hx => ?_, h.typeOf ht⟩
    rcases NameMap.get?_insert_some hx with ⟨rfl, rfl⟩ | ⟨-, hx⟩
    · exact (h _ s hs).replaceAt hf fun _ hu => .shadow hu
    · exact h x s' hx

/-- A variable that nothing borrows from gets another type. -/
theorem bind (h : Γ.Shaped σ) (hT : T.Fits σ f)
    (hΓ : ∀ y s m p, Γ.get? y = some s → s.ty.Lends m p → p.name ≠ x)
    (hx : ∀ m p, T.Lends m p → p.name ≠ x) :
    Shaped (Function.update σ x f) (Γ.insert x ⟨T, l⟩) := by
  intro y s hy
  rcases NameMap.get?_insert_some hy with ⟨rfl, rfl⟩ | ⟨hne, hy⟩
  · rw [Function.update_self]
    refine hT.congr fun p hp => ?_
    obtain ⟨m, hp⟩ := Ty.mem_borrowed.1 hp
    rw [Function.update_of_ne (hx m p hp)]
  · rw [Function.update_of_ne hne]
    refine (h y s hy).congr fun p hp => ?_
    obtain ⟨m, hp⟩ := Ty.mem_borrowed.1 hp
    rw [Function.update_of_ne (hΓ y s m p hy hp)]

/-- **A write leaves the shapes as they are.** What is written has the shape of the place. -/
theorem write (h : Γ.Shaped σ) (hT : T.Fits σ f)
    (hw : write variance Γ p T strong = .ok Γ') : Γ'.Shaped σ := by
  refine (writeUpTo_slots (R := fun x s => s.ty.Fits σ (σ x)) (Q := fun _ => True)
    (fun _ _ _ _ _ _ _ _ _ => trivial) (fun Γ₁ q s old new h₁ _ hadm hf hnew => ?_)
    ⟨fun _ => Iff.rfl, h⟩ trivial hw).slot
  have hshape : Γ₁.Shaped σ := h₁.slot
  obtain ⟨current, ht, hcomp⟩ := hadm.compatible
  have hcur := hshape.typeOf ht
  have hpart : (σ q.name).part q.path = f := compatible_shape (.inr rfl) hshape hshape hcomp hcur hT
  have hold : old.Fits σ f := hpart ▸ (h₁.slot _ _ hadm.slot).reached hf
  refine (h₁.slot _ _ hadm.slot).replaceAt hf fun f' hf' => ?_
  cases hold.unique hf'
  rcases hnew with ⟨-, rfl⟩ | hu
  · exact hT
  · exact .of_union hu hold hT

theorem leave (h : Γ.Shaped σ) : (Γ.dropLifetime inner).Shaped σ :=
  fun x s hs => h x s (Env.get?_dropLifetime.1 hs).1

theorem eraseAll (h : Γ.Shaped σ) : Shaped σ (NameMap.eraseAll Γ N) :=
  fun x s hs => h x s (NameMap.get?_eraseAll_some.1 hs).2

end Env.Shaped

theorem Ty.Fits.exists_compound {σ : String → Shape} {ts : List Ty}
    (h : ∀ t ∈ ts, ∃ f, t.Fits σ f) : ∃ f, (Ty.compound ts).Fits σ f := by
  choose! f hf using h
  refine ⟨.compound (ts.map f), .compound (by simp) fun i t g ht hg => ?_⟩
  rw [List.getElem?_map, ht] at hg
  cases hg
  exact hf t (List.mem_of_getElem? ht)


/-! ### Stable properties -/

/-- A property that may speak of shapes, of an environment and of what has been evaluated there. -/
abbrev Judgement := (String → Shape) → Env → Ty → Prop

/-- **The variables have shapes**, and `I` holds of them. -/
structure Kept (I : Judgement) (σ : String → Shape) (Γ : Env) (T : Ty) : Prop where
  shaped : Γ.Shaped σ
  fits : ∃ f, T.Fits σ f
  holds : I σ Γ T

/-- The variables of `Γ` have the same shapes. -/
def Agrees (Γ : Env) (σ σ' : String → Shape) : Prop := ∀ x s, Γ.get? x = some s → σ' x = σ x

/-- **What is asked of sites in a program that uses extensions.** No initialiser binds the name that
it is for, and the arms of conditionals are compared by their shapes, or declare nothing. -/
structure Tidy (c : Checker) (ok : Site → Prop) : Prop where
  fresh : ∀ {Γ Γ₁ l sp x xs t T}, ok ⟨Γ, l, .letMut sp x xs t⟩ →
    (c.apply Γ l t).result = .ok (Γ₁, T) → Γ₁.get? x = none
  arms : ∀ {Γ l sp o e left right onTrue onFalse},
    ok ⟨Γ, l, .ext sp o [left, right, onTrue, onFalse]⟩ →
    formOf? c.extensions o = some (.conditional e) →
    c.variance = .covariant ∨ onTrue.declares = []

/-- **The same of declarations of new names only.** If the name is bound, the declaration is refused
before its initialiser is typed. -/
structure Neat (c : Checker) (ok : Site → Prop) : Prop where
  fresh : ∀ {Γ Γ₁ l sp x xs t T}, ok ⟨Γ, l, .letMut sp x xs t⟩ → Γ.contains x = false →
    (c.apply Γ l t).result = .ok (Γ₁, T) → Γ₁.get? x = none
  arms : ∀ {Γ l sp o e left right onTrue onFalse},
    ok ⟨Γ, l, .ext sp o [left, right, onTrue, onFalse]⟩ →
    formOf? c.extensions o = some (.conditional e) →
    c.variance = .covariant ∨ onTrue.declares = []

theorem Tidy.neat {ok : Site → Prop} (h : Tidy c ok) : Neat c ok :=
  ⟨fun hok _ => h.fresh hok, h.arms⟩

/-- **The rules of extensions keep the property.** -/
structure Extended (c : Checker) (ok : Site → Prop) (I : Judgement) : Prop extends
    Neat c ok where
  release : ∀ {σ N} {Γ : Env}, I σ Γ .unit →
    I σ (NameMap.eraseAll Γ N) (.compound (N.filterMap fun n => (Γ.get? n).map (·.ty)))
  merge : ∀ {σ σ' lhs rhs J T₁ T₂ T}, I σ lhs T₁ → I σ' rhs T₂ →
    Agrees rhs σ σ' → rhs.Borrows rhs T₂ →
    join c.variance lhs rhs = .ok J → T₁.union T₂ = some T → I σ J T

/-- **Every rule keeps the property**, where the site passes the tests `ok`. -/
structure Stable (c : Checker) (ok : Site → Prop) (I : Judgement) : Prop where
  forget : ∀ {σ Γ T}, I σ Γ T → I σ Γ .unit
  int : ∀ {σ Γ}, I σ Γ .unit → I σ Γ .int
  box : ∀ {σ Γ T}, I σ Γ T → I σ Γ (.box T)
  read : ∀ {σ Γ Γ' kind p T}, Γ.Shaped σ → I σ Γ .unit → c.read Γ kind p = .ok (Γ', T) → I σ Γ' T
  borrow : ∀ {σ Γ l sp m p T}, Γ.Shaped σ → I σ Γ .unit → ok ⟨Γ, l, .borrow sp m p⟩ →
    Checker.borrow Γ m p = .ok T → I σ Γ T
  bind : ∀ {σ Γ T f x l}, Γ.Shaped σ → I σ Γ T → T.Fits σ f →
    (∀ y s m p, Γ.get? y = some s → s.ty.Lends m p → p.name ≠ x) →
    (∀ m p, T.Lends m p → p.name ≠ x) → I (Function.update σ x f) (Γ.insert x ⟨T, l⟩) .unit
  assign : ∀ {σ Γ Γ₁ Γ' l sp p t s T f}, Γ₁.Shaped σ → I σ Γ₁ T → T.Fits σ f →
    ok ⟨Γ, l, .assign sp p t⟩ → Γ.get? p.name = some s → (c.apply Γ l t).result = .ok (Γ₁, T) →
    c.assign Γ₁ p T = .ok Γ' → I σ Γ' .unit
  leave : ∀ {σ Γ T inner}, I σ Γ T →
    (Γ.dropLifetime inner).Borrows (Γ.dropLifetime inner) T → I σ (Γ.dropLifetime inner) T
  extended : c.extensions ≠ [] → Extended c ok I

theorem Agrees.refl (Γ : Env) (σ : String → Shape) : Agrees Γ σ σ := fun _ _ _ => rfl

theorem Agrees.trans {σ₁ σ₂ σ₃ : String → Shape} (h : Agrees Γ σ₁ σ₂)
    (hk : ∀ x s, Γ.get? x = some s → ∃ s', Γ₁.get? x = some s' ∧ s'.lifetime = s.lifetime)
    (h' : Agrees Γ₁ σ₂ σ₃) : Agrees Γ σ₁ σ₃ := by
  intro x s hs
  obtain ⟨s', hs', -⟩ := hk x s hs
  rw [h' x s' hs', h x s hs]

namespace Stable

variable {ok : Site → Prop} {I : Judgement} {σ τ : String → Shape}

/-- Typing the term keeps the property. -/
def Keeps (c : Checker) (ok : Site → Prop) (I : Judgement) (t : Term) : Prop :=
  ∀ {l K Γ Γ' T σ}, c.Orderly l t → (c.extensions = [] → K = []) → Γ.Scoped l K .unit →
    Kept I σ Γ .unit → (∀ b, c.Visits ⟨Γ, l, t⟩ b → ok b) →
    (c.apply Γ l t).result = .ok (Γ', T) → ∃ σ', Agrees Γ σ σ' ∧ Kept I σ' Γ' T

theorem forget_kept (law : Stable c ok I) (h : Kept I σ Γ T) : Kept I σ Γ .unit :=
  ⟨h.shaped, ⟨_, .unit⟩, law.forget h.holds⟩

/-- A name that is not bound is bound to a slot. -/
theorem bind_kept (law : Stable c ok I) (h : Kept I σ Γ T)
    (hΓ : ∀ y s m p, Γ.get? y = some s → s.ty.Lends m p → p.name ≠ x)
    (hT : ∀ m p, T.Lends m p → p.name ≠ x) :
    ∃ σ', (∀ y, y ≠ x → σ' y = σ y) ∧ Kept I σ' (Γ.insert x ⟨T, l⟩) .unit := by
  obtain ⟨f, hf⟩ := h.fits
  exact ⟨_, fun y hy => Function.update_of_ne hy .., h.shaped.bind hf hΓ hT, ⟨_, .unit⟩,
    law.bind h.shaped h.holds hf hΓ hT⟩

theorem park_kept (law : Stable c ok I) (h : Kept I σ Γ T) (hΓ : Γ.Scoped l K T)
    (names : List String) :
    ∃ σ', Agrees Γ σ σ' ∧ Kept I σ' (Parked.park l names (Γ, T)).env .unit := by
  have hnew := Γ.freshName_spec.2
  -- nothing borrows from a name that is not bound
  have bound : ∀ {y : String}, (∃ s, Γ.get? y = some s) → y ≠ Γ.freshName := by
    rintro y ⟨s, hs⟩ e
    rw [e, hnew] at hs
    cases hs
  obtain ⟨σ', hσ, hI⟩ := law.bind_kept h (l := l.global)
    (fun y s m p hs hp => bound (hΓ.borrows.1 y s m p hs hp))
    fun m p hp => bound (hΓ.borrows.2 m p hp)
  exact ⟨σ', fun y s hs => hσ y (bound ⟨s, hs⟩), hI⟩

/-- Statements keep the property, one after the other. -/
theorem sequence (law : Stable c ok I) (each : ∀ t ∈ ts, Keeps c ok I t)
    (ho : ∀ t ∈ ts, c.Orderly l t) (hK : c.extensions = [] → K = []) (hΓ : Γ.Scoped l K T)
    (hI : Kept I σ Γ T)
    (hok : ∀ ss t us Γ₁ T₁, ts = ss ++ t :: us → (c.sequence Γ l T ss).result = .ok (Γ₁, T₁) →
      ∀ b, c.Visits ⟨Γ₁, l, t⟩ b → ok b)
    (h : (c.sequence Γ l T ts).result = .ok (Γ', U)) : ∃ σ', Agrees Γ σ σ' ∧ Kept I σ' Γ' U := by
  induction ts generalizing Γ T σ with
  | nil =>
    obtain ⟨rfl, rfl⟩ := Checker.sequence_nil h
    exact ⟨σ, fun _ _ _ => rfl, hI⟩
  | cons t ts ih =>
    obtain ⟨Γ₁, T₁, h₁, h⟩ := Checker.sequence_cons h
    have ht := ho t List.mem_cons_self
    have hstart : (c.sequence Γ l T []).result = .ok (Γ, T) := by
      simp only [Checker.sequence, Traced.result_pure]
    obtain ⟨σ₁, hσ₁, hI₁⟩ := each t List.mem_cons_self ht hK hΓ.forget (law.forget_kept hI)
      (hok [] t ts Γ T rfl hstart) h₁
    have hleaves := Checker.scoped_apply t ht hK hΓ.forget h₁
    obtain ⟨σ', hσ', hI'⟩ := ih (fun t ht => each t (List.mem_cons_of_mem _ ht))
      (fun t ht => ho t (List.mem_cons_of_mem _ ht)) hleaves.scope hI₁
      (fun ss u us Γ₂ T₂ e h₂ => hok (t :: ss) u us Γ₂ T₂ (by rw [e]; rfl)
        (by rw [Checker.sequence_of_cons h₁, h₂])) h
    exact ⟨σ', hσ₁.trans hleaves.goesOn.kept hσ', hI'⟩

/-- One operand keeps the property, and is parked. -/
theorem park_one {x : Env × Ty} (law : Stable c ok I) (ht : Keeps c ok I t) (ho : c.Orderly l t)
    (hc : c.extensions ≠ []) (hP : Env.Parks l K N Γ P) (hI : Kept I σ P.env .unit)
    (hok : ∀ b, c.Visits ⟨P.env, l, t⟩ b → ok b) (h : (c.apply P.env l t).result = .ok x) :
    (∃ N', Env.Parks l K N' Γ (Parked.park l P.names x)) ∧
      ∃ σ', Agrees P.env σ σ' ∧ Kept I σ' (Parked.park l P.names x).env .unit := by
  obtain ⟨Γ₁, T⟩ := x
  have hK : c.extensions = [] → K ++ P.names = [] := fun e => absurd e hc
  obtain ⟨σ₁, hσ₁, hI₁⟩ := ht ho hK hP.scope hI hok h
  have hleaves := Checker.scoped_apply t ho hK hP.scope h
  obtain ⟨σ₂, hσ₂, hI₂⟩ := law.park_kept hI₁ hleaves.scope P.names
  exact ⟨⟨_, hP.park hleaves.scope hleaves.goesOn⟩, σ₂, hσ₁.trans hleaves.goesOn.kept hσ₂, hI₂⟩

/-- Operands keep the property, one after the other. -/
theorem park (law : Stable c ok I) (each : ∀ t ∈ ts, Keeps c ok I t)
    (ho : ∀ t ∈ ts, c.Orderly l t) (hc : c.extensions ≠ []) (hP : Env.Parks l K N Γ P)
    (hI : Kept I σ P.env .unit)
    (hok : ∀ ss t us P₁, ts = ss ++ t :: us → (c.park l P ss).result = .ok P₁ →
      ∀ b, c.Visits ⟨P₁.env, l, t⟩ b → ok b)
    (hσ : Agrees Γ τ σ) (h : (c.park l P ts).result = .ok P') :
    (∃ N', Env.Parks l K N' Γ P') ∧ ∃ σ', Agrees Γ τ σ' ∧ Kept I σ' P'.env .unit := by
  induction ts generalizing P N σ with
  | nil =>
    cases Checker.park_nil h
    exact ⟨⟨N, hP⟩, σ, hσ, hI⟩
  | cons t ts ih =>
    obtain ⟨x, h₁, h⟩ := Checker.park_cons h
    have hstart : (c.park l P []).result = .ok P := by
      simp only [Checker.park, Traced.result_pure]
    obtain ⟨⟨N₁, hP₁⟩, σ₁, hσ₁, hI₁⟩ := law.park_one (each t List.mem_cons_self)
      (ho t List.mem_cons_self) hc hP hI (hok [] t ts P rfl hstart) h₁
    refine ih (fun t ht => each t (List.mem_cons_of_mem _ ht))
      (fun t ht => ho t (List.mem_cons_of_mem _ ht)) hP₁ hI₁ (fun ss u us P₂ e h₂ => ?_)
      (hσ.trans hP.kept hσ₁) h
    exact hok (t :: ss) u us P₂ (by rw [e]; rfl) (by rw [Checker.park_of_cons h₁, h₂])

theorem release_kept (law : Stable c ok I) (hc : c.extensions ≠ []) (h : Kept I σ P.env .unit) :
    Kept I σ P.release.1 (.compound P.release.2) where
  shaped := h.shaped.eraseAll
  fits := by
    refine Ty.Fits.exists_compound fun t ht => ?_
    obtain ⟨n, -, hn⟩ := List.mem_filterMap.1 ht
    obtain ⟨s, hs, rfl⟩ := Option.map_eq_some_iff.1 hn
    exact ⟨σ n, h.shaped n s hs⟩
  holds := (law.extended hc).release h.holds

/-- **The arms of a conditional have the same shapes**, so what holds of both holds of what they
are merged to. -/
theorem merge_kept {σ' : String → Shape} (law : Stable c ok I) (hc : c.extensions ≠ [])
    (hv : c.variance = .covariant ∨ Agrees rhs σ σ') (h : Kept I σ lhs T₁) (h' : Kept I σ' rhs T₂)
    (hrhs : rhs.Borrows rhs T₂)
    (hm : c.merge (lhs, T₁) (rhs, T₂) = .ok (J, T)) : Kept I σ J T := by
  obtain ⟨-, hj, hu⟩ := Checker.merge_ok hm
  have same : Agrees rhs σ σ' := by
    rcases hv with hv | hv
    · intro x r hr
      obtain ⟨s₁, t, hs₁, -, hcomp, -⟩ := joined_of_right hj hr
      exact (compatible_shape (.inl hv) h.shaped h'.shaped hcomp (h.shaped x s₁ hs₁)
        (h'.shaped x r hr)).symm
    · exact hv
  -- types of the second arm have their shapes in the first one, too
  have fits : ∀ {U : Ty} {f : Shape}, (∀ m p, U.Lends m p → ∃ s, rhs.get? p.name = some s) →
      U.Fits σ' f → U.Fits σ f := by
    intro U f hU hf
    refine hf.congr fun p hp => ?_
    obtain ⟨m, hp⟩ := Ty.mem_borrowed.1 hp
    obtain ⟨s, hs⟩ := hU m p hp
    exact same _ s hs
  have hrhs' : rhs.Shaped σ := by
    intro x s hs
    rw [← same x s hs]
    exact fits (fun m p hp => hrhs.1 x s m p hs hp) (h'.shaped x s hs)
  refine ⟨fun x s hs => ?_, ?_, (law.extended hc).merge h.holds h'.holds same hrhs hj hu⟩
  · obtain ⟨s₁, r, hs₁, hr, -, -, hunion⟩ := joined_of_join hj hs
    exact .of_union hunion (h.shaped x s₁ hs₁) (hrhs' x r hr)
  · obtain ⟨f₁, hf₁⟩ := h.fits
    obtain ⟨f₂, hf₂⟩ := h'.fits
    have hf₂ := fits hrhs.2 hf₂
    obtain ⟨he, -, -⟩ := Checker.merge_ok hm
    cases compatible_shape (.inr rfl) h.shaped hrhs' (Checker.expect_ok he) hf₁ hf₂
    exact ⟨f₁, .of_union hu hf₁ hf₂⟩

/-- The property holds before the arms of a conditional, once its operands have been released. -/
theorem before_arms {x y : Env × Ty} {us : List Ty} (law : Stable c ok I)
    (hl : Keeps c ok I left) (hr : Keeps c ok I right)
    (ho : c.Orderly l (.ext sp o [left, right, onTrue, onFalse])) (hΓ : Γ.Scoped l K .unit)
    (hI : Kept I σ Γ .unit)
    (hok : ∀ b, c.Visits ⟨Γ, l, .ext sp o [left, right, onTrue, onFalse]⟩ b → ok b)
    (hform : formOf? c.extensions o = some (.conditional e))
    (hx : (c.apply Γ l left).result = .ok x)
    (hy : (c.apply (Parked.park l [] x).env l right).result = .ok y)
    (hrel : (Γ₁, us) = (Parked.park l (Parked.park l [] x).names y).release) :
    Γ₁.Scoped l K .unit ∧ (∀ x s, Γ.get? x = some s → ∃ s', Γ₁.get? x = some s' ∧
      s'.lifetime = s.lifetime) ∧ ∃ σ', Agrees Γ σ σ' ∧ Kept I σ' Γ₁ .unit := by
  have hc := Checker.extensions_of_form hform
  obtain ⟨⟨N₁, hP₁⟩, σ₁, hσ₁, hI₁⟩ := law.park_one (P := ⟨Γ, []⟩) hl (ho.ext (by simp)) hc
    (.nil hΓ) hI (fun b hb => hok b (.head (.left hform) hb)) hx
  obtain ⟨⟨N₂, hP₂⟩, σ₂, hσ₂, hI₂⟩ := law.park_one hr (ho.ext (by simp)) hc hP₁ hI₁
    (fun b hb => hok b (.head (.right hform hx) hb)) hy
  have hI₃ := law.release_kept hc hI₂
  obtain ⟨hΓ₁, he⟩ := hP₂.release hΓ
  rw [← hrel] at hI₃ hΓ₁ he
  exact ⟨hΓ₁.forget, he.kept, σ₂, Agrees.trans hσ₁ hP₁.kept hσ₂, law.forget_kept hI₃⟩

theorem apply_conditional (law : Stable c ok I)
    (each : ∀ t ∈ [left, right, onTrue, onFalse], Keeps c ok I t)
    (ho : c.Orderly l (.ext sp o [left, right, onTrue, onFalse])) (hΓ : Γ.Scoped l K .unit)
    (hI : Kept I σ Γ .unit)
    (hok : ∀ b, c.Visits ⟨Γ, l, .ext sp o [left, right, onTrue, onFalse]⟩ b → ok b)
    (hform : formOf? c.extensions o = some (.conditional e))
    (h : (c.apply Γ l (.ext sp o [left, right, onTrue, onFalse])).result = .ok (Γ', T)) :
    ∃ σ', Agrees Γ σ σ' ∧ Kept I σ' Γ' T := by
  have hc := Checker.extensions_of_form hform
  have hK : c.extensions = [] → K = [] := fun e => absurd e hc
  obtain ⟨x, y, Γ₁, us, ⟨Γt, Tt⟩, ⟨Γf, Tf⟩, hx, hy, hrel, hcmp, ht, hf, hm⟩ :=
    Checker.apply_conditional hform h
  obtain ⟨hΓ₁, hkept, σ₁, hσ₁, hI₁⟩ := law.before_arms (each left (by simp))
    (each right (by simp)) ho hΓ hI hok hform hx hy hrel
  obtain ⟨σ₂, hσ₂, hI₂⟩ := each onTrue (by simp) (ho.ext (by simp)) hK hΓ₁ hI₁
    (fun b hb => hok b (.head (.onTrue hform hx hy hrel hcmp) hb)) ht
  obtain ⟨σ₃, hσ₃, hI₃⟩ := each onFalse (by simp) (ho.ext (by simp)) hK hΓ₁ hI₁
    (fun b hb => hok b (.head (.onFalse hform hx hy hrel hcmp ht) hb)) hf
  have htrue := Checker.scoped_apply onTrue (ho.ext (by simp)) hK hΓ₁ ht
  have hfalse := Checker.scoped_apply onFalse (ho.ext (by simp)) hK hΓ₁ hf
  -- arms that declare nothing have the variables that there were before
  have hv : c.variance = .covariant ∨ Agrees Γf σ₂ σ₃ := by
    refine ((law.extended hc).arms (hok _ .refl) hform).imp_right fun hnil x s hs => ?_
    obtain ⟨-, hj, -⟩ := Checker.merge_ok hm
    have hs₁ : ∃ s₁, Γ₁.get? x = some s₁ := by
      cases hx : Γ₁.get? x with
      | some s₁ => exact ⟨s₁, rfl⟩
      | none =>
        obtain ⟨s₁, t, hxt, -⟩ := joined_of_right hj hs
        have := (htrue.goesOn.fresh x s₁ hxt hx).1
        rw [hnil] at this
        cases this
    obtain ⟨s₁, hs₁⟩ := hs₁
    rw [hσ₃ x s₁ hs₁, hσ₂ x s₁ hs₁]
  exact ⟨σ₂, hσ₁.trans hkept hσ₂, law.merge_kept hc hv hI₂ hI₃ hfalse.scope.borrows hm⟩

/-- **What is stable holds of what a term leaves behind.** -/
theorem apply (law : Stable c ok I) (t : Term) : Keeps c ok I t := by
  induction t with
  | value s v =>
    intro l K Γ Γ' T σ ho hK hΓ hI hok h
    obtain ⟨-, rfl, rfl⟩ := Checker.apply_value h
    exact ⟨σ, fun _ _ _ => rfl, hI.shaped, ⟨_, .int⟩, law.int hI.holds⟩
  | access s k p =>
    intro l K Γ Γ' T σ ho hK hΓ hI hok h
    have hr := Checker.apply_access h
    obtain ⟨hs, hf⟩ := hI.shaped.read hr
    exact ⟨σ, fun _ _ _ => rfl, hs, ⟨_, hf⟩, law.read hI.shaped hI.holds hr⟩
  | borrow s m p =>
    intro l K Γ Γ' T σ ho hK hΓ hI hok h
    obtain ⟨rfl, hb⟩ := Checker.apply_borrow h
    have hI' := law.borrow hI.shaped hI.holds (hok _ .refl) hb
    obtain ⟨-, -, -, -, -, rfl⟩ := Checker.borrow_ok hb
    exact ⟨σ, fun _ _ _ => rfl, hI.shaped, ⟨_, .borrowOf m p⟩, hI'⟩
  | box s t ih =>
    intro l K Γ Γ' T σ ho hK hΓ hI hok h
    obtain ⟨U, h₁, rfl⟩ := Checker.apply_box h
    obtain ⟨σ', hσ, hI'⟩ := ih ho.box hK hΓ hI (fun b hb => hok b (.head .content hb)) h₁
    obtain ⟨f, hf⟩ := hI'.fits
    exact ⟨σ', hσ, hI'.shaped, ⟨_, .box hf⟩, law.box hI'.holds⟩
  | letMut s x xs t ih =>
    intro l K Γ Γ' T σ ho hK hΓ hI hok h
    obtain ⟨hx, Γ₁, U, h₁, rfl, rfl⟩ := Checker.apply_letMut h
    obtain ⟨σ₁, hσ₁, hI₁⟩ := ih ho.letMut hK hΓ hI (fun b hb => hok b (.head (.init hx) hb)) h₁
    have hleaves := Checker.scoped_apply t ho.letMut hK hΓ h₁
    -- nothing borrows from the new variable
    have unbound : ∃ Γ₀ : Env, Γ₀.get? x = none ∧ Γ₀.Borrows Γ₁ U := by
      by_cases hc : c.extensions = []
      · exact ⟨Γ, NameMap.contains_eq_false_iff.1 hx, hleaves.core hc⟩
      · exact ⟨Γ₁, (law.extended hc).fresh (hok _ .refl) hx h₁, hleaves.scope.borrows⟩
    obtain ⟨Γ₀, hnone, hΓ₁, hU⟩ := unbound
    have other : ∀ {Γ₀ : Env} {y}, Γ₀.get? x = none → (∃ s, Γ₀.get? y = some s) → y ≠ x := by
      rintro Γ₀ y hnone ⟨s, hs⟩ e
      rw [e, hnone] at hs
      cases hs
    obtain ⟨σ', hσ', hI'⟩ := law.bind_kept hI₁ (l := l)
      (fun y s m p hs hp => other hnone (hΓ₁ y s m p hs hp)) fun m p hp => other hnone (hU m p hp)
    refine ⟨σ', fun y s hs => ?_, hI'⟩
    rw [hσ' y (other (NameMap.contains_eq_false_iff.1 hx) ⟨s, hs⟩), hσ₁ y s hs]
  | assign s p t ih =>
    intro l K Γ Γ' T σ ho hK hΓ hI hok h
    obtain ⟨s', Γ₁, U, hs', h₁, ha, rfl⟩ := Checker.apply_assign h
    obtain ⟨σ', hσ, hI'⟩ := ih ho.assign hK hΓ hI
      (fun b hb => hok b (.head (.source (declared_ok.2 hs')) hb)) h₁
    obtain ⟨f, hf⟩ := hI'.fits
    obtain ⟨-, -, hw⟩ := Checker.assign_ok ha
    exact ⟨σ', hσ, hI'.shaped.write hf hw, ⟨_, .unit⟩,
      law.assign hI'.shaped hI'.holds hf (hok _ .refl) hs' h₁ ha⟩
  | block s inner ts ih =>
    intro l K Γ Γ' T σ ho hK hΓ hI hok h
    have hleaves := Checker.Leaves.of_block (fun t _ => Checker.scoped_apply t) ho hK hΓ h
    obtain ⟨Γ₁, h₁, -, rfl⟩ := Checker.apply_block h
    obtain ⟨σ', hσ, hI'⟩ := law.sequence ih (fun t ht => ho.block ht) hK (hΓ.enter ho.nested.1) hI
      (fun ss t us Γ₂ T₂ e h₂ b hb => hok b (by subst e; exact .head (.statement h₂) hb)) h₁
    exact ⟨σ', hσ, hI'.shaped.leave, hI'.fits, law.leave hI'.holds hleaves.scope.borrows⟩
  | ext s o ts ih =>
    intro l K Γ Γ' T σ ho hK hΓ hI hok h
    rcases Checker.apply_ext h with hform | ⟨e, left, right, onTrue, onFalse, hform, rfl⟩
    · have hc := Checker.extensions_of_form hform
      obtain ⟨P, hP, rfl, rfl⟩ := Checker.apply_tuple hform h
      obtain ⟨-, σ', hσ, hI'⟩ := law.park ih (fun t ht => ho.ext ht) hc (.nil hΓ) hI
        (fun ss t us P₁ e h₁ b hb => hok b (by subst e; exact .head (.operand hform h₁) hb))
        (.refl Γ σ) hP
      exact ⟨σ', hσ, law.release_kept hc hI'⟩
    · exact law.apply_conditional ih ho hΓ hI hok hform h

end Stable

/-! ### What is lent -/

/-- `Q` holds of every place that a variable or what has been evaluated borrows. -/
def Lent (Q : (String → Shape) → Bool → Place → Prop) : Judgement := fun σ Γ T =>
  (∀ x s m p, Γ.get? x = some s → s.ty.Lends m p → Q σ m p) ∧ ∀ m p, T.Lends m p → Q σ m p

namespace Lent

variable {Q : (String → Shape) → Bool → Place → Prop} {σ σ' : String → Shape}

theorem empty : Lent Q (fun _ => .misfit) .empty .unit :=
  ⟨nofun, fun _ _ hp => absurd hp Ty.not_lends_unit⟩

theorem retype (h : Lent Q σ Γ T) (hU : ∀ m p, U.Lends m p → Q σ m p) : Lent Q σ Γ U := ⟨h.1, hU⟩

/-- Arms that lend what `Q` holds of are merged to what lends no more. -/
theorem merge (congr : ∀ {σ σ' m p}, σ' p.name = σ p.name → Q σ m p → Q σ' m p)
    (h : Lent Q σ lhs T₁) (h' : Lent Q σ' rhs T₂) (hσ : Agrees rhs σ σ')
    (hrhs : rhs.Borrows rhs T₂) (hj : join variance lhs rhs = .ok J) (hu : T₁.union T₂ = some T) :
    Lent Q σ J T := by
  have back : ∀ {m p}, (∃ s, rhs.get? p.name = some s) → Q σ' m p → Q σ m p := by
    rintro m p ⟨s, hs⟩ hq
    exact congr (hσ _ s hs).symm hq
  refine ⟨fun x s m p hs hp => ?_, fun m p hp => ?_⟩
  · obtain ⟨s₁, s₂, hs₁, hs₂, -, -, ht⟩ := joined_of_join hj hs
    rcases (Ty.lends_union ht).1 hp with hp | hp
    · exact h.1 x s₁ m p hs₁ hp
    · exact back (hrhs.1 x s₂ m p hs₂ hp) (h'.1 x s₂ m p hs₂ hp)
  · rcases (Ty.lends_union hu).1 hp with hp | hp
    · exact h.2 m p hp
    · exact back (hrhs.2 m p hp) (h'.2 m p hp)

end Lent

/-- **What holds of every place when it is borrowed holds as long as it is borrowed**, if it only
speaks of the shape of its variable. -/
theorem Stable.lent {ok : Site → Prop} {Q : (String → Shape) → Bool → Place → Prop}
    (congr : ∀ {σ σ' m p}, σ' p.name = σ p.name → Q σ m p → Q σ' m p)
    (borrow : ∀ {σ Γ l sp m p T}, Γ.Shaped σ → Lent Q σ Γ .unit → ok ⟨Γ, l, .borrow sp m p⟩ →
      Checker.borrow Γ m p = .ok T → Q σ m p)
    (extended : c.extensions ≠ [] → Neat c ok) : Stable c ok (Lent Q) where
  forget h := h.retype fun _ _ hp => absurd hp Ty.not_lends_unit
  int h := h.retype fun _ _ hp => absurd hp Ty.not_lends_int
  box h := h.retype fun m p hp => h.2 m p (Ty.lends_box.1 hp)
  read _ h hr := by
    obtain ⟨hkept, hlend⟩ := Checker.lends_of_read hr
    refine ⟨fun x s m p hs hp => ?_, fun m p hp => ?_⟩
    · obtain ⟨s', hs', hp⟩ := hkept x s m p hs hp
      exact h.1 x s' m p hs' hp
    · obtain ⟨x, s, hs, hp⟩ := hlend m p hp
      exact h.1 x s m p hs hp
  borrow hs h hok hb := by
    have hq := borrow hs h hok hb
    obtain ⟨-, -, -, -, -, rfl⟩ := Checker.borrow_ok hb
    refine h.retype fun m p hp => ?_
    obtain ⟨rfl, rfl⟩ := Ty.lends_borrowOf.1 hp
    exact hq
  bind _ h _ hΓ hT := by
    -- no place that is lent is one of the new variable
    refine ⟨fun y s m p hs hp => ?_, fun m p hp => absurd hp Ty.not_lends_unit⟩
    rcases NameMap.get?_insert_some hs with ⟨rfl, rfl⟩ | ⟨-, hs⟩
    · exact congr (Function.update_of_ne (hT m p hp) ..) (h.2 m p hp)
    · exact congr (Function.update_of_ne (hΓ y s m p hs hp) ..) (h.1 y s m p hs hp)
  assign _ h _ _ _ _ ha := by
    obtain ⟨-, -, hw⟩ := Checker.assign_ok ha
    refine ⟨fun x s m p hs hp => ?_, fun m p hp => absurd hp Ty.not_lends_unit⟩
    rcases lends_of_write hw hs hp with ⟨s', hs', hp⟩ | hp
    · exact h.1 x s' m p hs' hp
    · exact h.2 m p hp
  leave h _ := ⟨fun x s m p hs => h.1 x s m p (Env.get?_dropLifetime.1 hs).1, h.2⟩
  extended hc := {
    toNeat := extended hc
    release := fun h => by
      refine ⟨fun x s m p hs => h.1 x s m p (NameMap.get?_eraseAll_some.1 hs).2, fun m p hp => ?_⟩
      obtain ⟨t, ht, hp⟩ := Ty.lends_compound.1 hp
      obtain ⟨n, -, hn⟩ := List.mem_filterMap.1 ht
      obtain ⟨s, hs, rfl⟩ := Option.map_eq_some_iff.1 hn
      exact h.1 n s m p hs hp
    merge := fun h h' hσ hrhs hj hu => h.merge congr h' hσ hrhs hj hu }

/-! ### Sites -/

/-- **The property holds at the site**: of an environment in which all is in scope, before an
orderly term. -/
structure Upholds (c : Checker) (I : Judgement) (a : Site) : Prop where
  orderly : c.Orderly a.lifetime a.term
  scope : ∃ K, (c.extensions = [] → K = []) ∧ a.env.Scoped a.lifetime K .unit
  kept : ∃ σ, Kept I σ a.env .unit

theorem Env.Scoped.empty (l : Lifetime) : Env.Scoped l [] .empty .unit where
  level := nofun
  closed := nofun
  flight := fun _ _ hp => absurd hp Ty.not_lends_unit
  parked := nofun

/-- A program starts in the empty environment. -/
theorem Upholds.empty {I : Judgement} (ho : c.Orderly l t)
    (hI : I (fun _ => .misfit) .empty .unit) : Upholds c I ⟨.empty, l, t⟩ :=
  ⟨ho, ⟨[], fun _ => rfl, .empty l⟩, _, nofun, ⟨_, .unit⟩, hI⟩

namespace Stable

variable {ok : Site → Prop} {I : Judgement} {σ : String → Shape}

/-- What a site that upholds the property leaves. -/
theorem result (law : Stable c ok I) (h : Upholds c I a) (hok : ∀ b, c.Visits a b → ok b)
    (hr : (c.apply a.env a.lifetime a.term).result = .ok (Γ', T)) :
    (∃ K, (c.extensions = [] → K = []) ∧ Γ'.Scoped a.lifetime K T) ∧ ∃ σ, Kept I σ Γ' T := by
  obtain ⟨K, hK, hΓ⟩ := h.scope
  obtain ⟨σ, hI⟩ := h.kept
  obtain ⟨σ', -, hI'⟩ := law.apply _ h.orderly hK hΓ hI hok hr
  exact ⟨⟨K, hK, (Checker.scoped_apply _ h.orderly hK hΓ hr).scope⟩, σ', hI'⟩

/-- The property holds before each statement of a block. -/
theorem calls_statement {Γ : Env} (law : Stable c ok I)
    (h : Upholds c I ⟨Γ, l, .block sp inner (ss ++ t :: us)⟩)
    (hok : ∀ b, c.Visits ⟨Γ, l, .block sp inner (ss ++ t :: us)⟩ b → ok b)
    (hs : (c.sequence Γ inner .unit ss).result = .ok (Γ₁, T)) : Upholds c I ⟨Γ₁, inner, t⟩ := by
  obtain ⟨K, hK, hΓ⟩ := h.scope
  obtain ⟨σ, hI⟩ := h.kept
  have ho : ∀ u ∈ ss ++ t :: us, c.Orderly inner u := fun u hu => h.orderly.block hu
  have hss : ∀ u ∈ ss, c.Orderly inner u := fun u hu => ho u (List.mem_append_left _ hu)
  have hΓ := hΓ.enter h.orderly.nested.1
  have hseq := Checker.scoped_sequence (fun u _ => Checker.scoped_apply u) hss hK hΓ hs
  obtain ⟨σ₁, -, hI₁⟩ := law.sequence (fun u _ => law.apply u) hss hK hΓ hI
    (fun ss' u us' Γ₂ T₂ e h₂ b hb => hok b (by
      subst e
      rw [List.append_assoc, List.cons_append] at hok ⊢
      exact .head (.statement h₂) hb)) hs
  exact ⟨ho t (by simp), ⟨K, hK, hseq.1.forget⟩, σ₁, law.forget_kept hI₁⟩

/-- The property holds before each operand of a tuple. -/
theorem calls_operand {Γ : Env} (law : Stable c ok I)
    (h : Upholds c I ⟨Γ, l, .ext sp o (ss ++ t :: us)⟩)
    (hok : ∀ b, c.Visits ⟨Γ, l, .ext sp o (ss ++ t :: us)⟩ b → ok b)
    (hform : formOf? c.extensions o = some .tuple)
    (hs : (c.park l ⟨Γ, []⟩ ss).result = .ok P) : Upholds c I ⟨P.env, l, t⟩ := by
  obtain ⟨K, hK, hΓ⟩ := h.scope
  obtain ⟨σ, hI⟩ := h.kept
  have hc := Checker.extensions_of_form hform
  have ho : ∀ u ∈ ss ++ t :: us, c.Orderly l u := fun u hu => h.orderly.ext hu
  obtain ⟨⟨N, hP⟩, σ₁, -, hI₁⟩ := law.park (fun u _ => law.apply u)
    (fun u hu => ho u (List.mem_append_left _ hu)) hc (.nil hΓ) hI
    (fun ss' u us' P₁ e h₁ b hb => hok b (by
      subst e
      rw [List.append_assoc, List.cons_append] at hok ⊢
      exact .head (.operand hform h₁) hb)) (.refl Γ σ) hs
  exact ⟨ho t (by simp), ⟨_, fun e => absurd e hc, hP.scope⟩, σ₁, hI₁⟩

/-- One step to a part of a term. -/
theorem calls (law : Stable c ok I) (h : Upholds c I a) (hok : ∀ b, c.Visits a b → ok b)
    (hab : c.Calls a b) : Upholds c I b := by
  cases hab with
  | init hx => exact ⟨.letMut h.orderly, h.scope, h.kept⟩
  | source hs => exact ⟨.assign h.orderly, h.scope, h.kept⟩
  | content => exact ⟨.box h.orderly, h.scope, h.kept⟩
  | statement hs => exact law.calls_statement h hok hs
  | operand hform hs => exact law.calls_operand h hok hform hs
  | left hform => exact ⟨.ext h.orderly (by simp), h.scope, h.kept⟩
  | right hform hx =>
    obtain ⟨K, hK, hΓ⟩ := h.scope
    obtain ⟨σ, hI⟩ := h.kept
    have hc := Checker.extensions_of_form hform
    obtain ⟨⟨N, hP⟩, σ', -, hI'⟩ := law.park_one (P := ⟨_, []⟩) (law.apply _)
      (.ext h.orderly (by simp)) hc (.nil hΓ) hI (fun b hb => hok b (.head (.left hform) hb)) hx
    exact ⟨.ext h.orderly (by simp), ⟨_, fun e => absurd e hc, hP.scope⟩, σ', hI'⟩
  | onTrue hform hx hy hrel hcmp =>
    obtain ⟨K, hK, hΓ⟩ := h.scope
    obtain ⟨σ, hI⟩ := h.kept
    obtain ⟨hΓ₁, -, σ', -, hI'⟩ := law.before_arms (law.apply _) (law.apply _) h.orderly hΓ hI hok
      hform hx hy hrel
    exact ⟨.ext h.orderly (by simp), ⟨K, hK, hΓ₁⟩, σ', hI'⟩
  | onFalse hform hx hy hrel hcmp ht =>
    obtain ⟨K, hK, hΓ⟩ := h.scope
    obtain ⟨σ, hI⟩ := h.kept
    obtain ⟨hΓ₁, -, σ', -, hI'⟩ := law.before_arms (law.apply _) (law.apply _) h.orderly hΓ hI hok
      hform hx hy hrel
    exact ⟨.ext h.orderly (by simp), ⟨K, hK, hΓ₁⟩, σ', hI'⟩

/-- **What is stable holds at every site that is visited.** -/
theorem visits (law : Stable c ok I) (h : Upholds c I a) (hok : ∀ b, c.Visits a b → ok b)
    (hab : c.Visits a b) : Upholds c I b := by
  induction hab with
  | refl => exact h
  | tail hab hbc ih => exact law.calls ih (fun d hd => hok d (hab.trans hd)) hbc

/-- The property holds of what is left before an assignment. -/
theorem source {Γ : Env} (law : Stable c (c.Visits a) I) (h : Upholds c I a)
    (hv : c.Visits a ⟨Γ, l, .assign sp p t⟩) (hs : Γ.get? p.name = some s)
    (ht : (c.apply Γ l t).result = .ok (Γ₁, T)) : ∃ σ, Kept I σ Γ₁ T := by
  have hsite : c.Visits a ⟨Γ, l, t⟩ := hv.tail (.source (declared_ok.2 hs))
  exact (law.result (law.visits h (fun _ hb => hb) hsite) (fun _ hb => hsite.trans hb) ht).2

/-- **What is stable holds of every environment that is reached.** -/
theorem reaches (law : Stable c ok I) (h : Upholds c I a) (hok : ∀ b, c.Visits a b → ok b)
    (hr : c.Reaches a Γ) :
    ∃ T, (∃ l K, (c.extensions = [] → K = []) ∧ Γ.Scoped l K T) ∧ ∃ σ, Kept I σ Γ T := by
  obtain ⟨b, hab, hcase⟩ := hr
  have hb := law.visits h hok hab
  rcases hcase with rfl | ⟨T, hT⟩
  · exact ⟨.unit, ⟨_, hb.scope⟩, hb.kept⟩
  · obtain ⟨hs, hI⟩ := law.result hb (fun d hd => hok d (hab.trans hd)) hT
    exact ⟨T, ⟨_, hs⟩, hI⟩

end Stable

end Ownership
