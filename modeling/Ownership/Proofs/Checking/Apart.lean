import Ownership.Proofs.Checking.Stable

/-!
# Ways that end apart

All ways from a place lead to places of one shape. A part of a shape is told by its size, so no two
paths of dereferences lead to the same one. Without components, then, the ways meet every variable
at one path, and none ends in a variable that another one passes (`Env.Apart`). That is so in
programs that use no extension, since the shapes of their variables have no components
(`Shape.Linear`), and in all programs whose places select none.

* `Checker.stable_linear`: **programs without extensions have linear shapes**.
* `Env.Shaped.apart`: ways of dereferences end apart from where they pass.
* `Checker.apart_of_assign`: **without components the ways from a place that is assigned to end
  apart.**
-/

namespace Ownership

open Relation

variable {c : Checker} {Γ : Env} {σ : String → Shape} {s : Shape} {π ρ rest : List Selector}
variable {p q : Place} {T t : Ty} {m : Bool} {ps : PlaceSet} {a b : Site} {Γ₁ : Env} {slot : Slot}
variable {l root : Lifetime} {sp : Span} {source program : Term}

namespace Shape

/-- **Every part of a shape is behind one number of dereferences only.** -/
theorem part_inj (hπ : ∀ a ∈ π, a = .deref) (hρ : ∀ a ∈ ρ, a = .deref)
    (hp : s.part π ≠ .misfit) (he : s.part π = s.part ρ) : π = ρ := by
  induction π generalizing s ρ with
  | nil =>
    cases ρ with
    | nil => rfl
    | cons b ρ =>
      rw [part_nil] at hp he
      exact absurd he.symm (part_ne_self hp)
  | cons a π ih =>
    cases ρ with
    | nil =>
      rw [part_nil] at he
      exact absurd he (part_ne_self (he ▸ hp))
    | cons b ρ =>
      have ha : a = .deref := hπ a List.mem_cons_self
      have hb : b = .deref := hρ b List.mem_cons_self
      subst ha hb
      have split : ∀ π, s.part (.deref :: π) = (s.part [.deref]).part π :=
        fun π => part_append s [.deref] π
      rw [split] at hp
      rw [split, split ρ] at he
      rw [ih (fun a h => hπ a (List.mem_cons_of_mem _ h))
        (fun a h => hρ a (List.mem_cons_of_mem _ h)) hp he]

/-- The shape has no components. -/
def Linear : Shape → Prop
  | unit | int | misfit => True
  | box s | ref _ s => s.Linear
  | compound _ => False

namespace Linear

theorem part (h : s.Linear) (π : List Selector) : (s.part π).Linear := by
  induction π generalizing s with
  | nil => rwa [part_nil]
  | cons a π ih =>
    cases s with
    | box s =>
      cases a with
      | deref => exact ih (s := s) h
      | index i => trivial
    | ref m s =>
      cases a with
      | deref => exact ih (s := s) h
      | index i => trivial
    | compound ss => exact h.elim
    | _ => cases a <;> trivial

/-- Only dereferences lead into a linear shape. -/
theorem derefs (h : s.Linear) (hp : s.part π ≠ .misfit) : ∀ a ∈ π, a = .deref := by
  induction π generalizing s with
  | nil => exact nofun
  | cons a π ih =>
    have ha : a = .deref := by
      cases a with
      | deref => rfl
      | index i =>
        cases s with
        | compound ss => exact h.elim
        | _ => exact absurd rfl hp
    subst ha
    have split : s.part (.deref :: π) = (s.part [.deref]).part π := part_append s [.deref] π
    rw [split] at hp
    intro b hb
    rcases List.mem_cons.1 hb with rfl | hb
    · rfl
    · exact ih (h.part _) hp b hb

end Linear

end Shape

/-! ### Ways without components -/

/-- The places that are borrowed select no component. -/
def LentStraight : Judgement := Lent fun _ _ p => p.straight = true

namespace Env.Shaped

/-- All ways from a place lead to places of its shape. -/
theorem part_of_way (h : Γ.Shaped σ) (hw : ReflTransGen Γ.Follows p q) :
    (σ q.name).part q.path = (σ p.name).part p.path := by
  induction hw with
  | refl => rfl
  | tail _ hstep ih =>
    obtain ⟨s, m, ps, rest, t, hs, hf, ht, rfl⟩ := hstep
    obtain ⟨-, hall⟩ := (h _ s hs).crossed hf
    exact (hall t ht).trans ih

/-- **Ways of dereferences end apart from where they pass.** -/
theorem apart (h : Γ.Shaped σ) (hp : (σ p.name).part p.path ≠ .misfit)
    (hd : ∀ q, ReflTransGen Γ.Follows p q → ∀ a ∈ q.path, a = .deref) : Γ.Apart p := by
  rintro x ⟨q, s, m, ps, rest, hq, hx, hs, hf⟩ ⟨q', s', u, hq', hx', hs', hf'⟩
  cases hs.symm.trans hs'
  -- both places are the one place of that shape in the variable
  have hpart := h.part_of_way hq
  have hpart' := h.part_of_way hq'
  rw [hx] at hpart
  rw [hx'] at hpart'
  have hpath : q.path = q'.path :=
    Shape.part_inj (hd q hq) (hd q' hq') (by rwa [hpart]) (hpart.trans hpart'.symm)
  rw [← hpath, hf] at hf'
  cases hf'

theorem apart_of_linear (h : Γ.Shaped σ) (hl : ∀ x, (σ x).Linear)
    (hp : (σ p.name).part p.path ≠ .misfit) : Γ.Apart p :=
  h.apart hp fun q hq => (hl q.name).derefs (by rwa [h.part_of_way hq])

theorem apart_of_straight (h : Γ.Shaped σ) (hs : LentStraight σ Γ T) (hstraight : p.straight = true)
    (hp : (σ p.name).part p.path ≠ .misfit) : Γ.Apart p := by
  refine h.apart hp fun q hq => ?_
  have hplace : ∀ {r : Place}, r.straight = true → ∀ a ∈ r.path, a = .deref := by
    intro r hr a ha
    exact beq_iff_eq.1 (List.all_eq_true.1 hr a ha)
  induction hq with
  | refl => exact hplace hstraight
  | tail _ hstep ih =>
    obtain ⟨s, m, ps, rest, t, hslot, hf, ht, rfl⟩ := hstep
    have hlent : t.straight = true := hs.1 _ s m t hslot (Ty.lends_of_crossed hf ht)
    intro a ha
    rcases List.mem_append.1 ha with ha | ha
    · exact hplace hlent a ha
    · exact ih a ((Ty.suffix_of_crossed hf).subset ha)

end Env.Shaped

/-! ### Programs without extensions -/

/-- **The shapes of all variables are linear.** -/
def LinearShapes : Judgement := fun σ _ T => (∀ x, (σ x).Linear) ∧ ∀ f, T.Fits σ f → f.Linear

theorem LinearShapes.unit (h : ∀ x, (σ x).Linear) : LinearShapes σ Γ .unit :=
  ⟨h, fun _ hf => by cases hf; trivial⟩

theorem LinearShapes.empty : LinearShapes (fun _ => .misfit) .empty .unit := .unit fun _ => trivial

namespace Checker

theorem stable_linear {ok : Site → Prop} (hc : c.extensions = []) : Stable c ok LinearShapes where
  forget h := .unit h.1
  int h := ⟨h.1, fun _ hf => by cases hf; trivial⟩
  box h := ⟨h.1, fun _ hf => by
    cases hf with
    | box hf =>
      have hlin := h.2 _ hf
      exact hlin⟩
  read hs h hr := by
    obtain ⟨-, hT⟩ := hs.read hr
    exact ⟨h.1, fun f hf => hT.unique hf ▸ (h.1 _).part _⟩
  borrow hs h _ hb := by
    obtain ⟨-, -, -, -, -, rfl⟩ := Checker.borrow_ok hb
    exact ⟨h.1, fun f hf => (Ty.Fits.borrowOf _ _).unique hf ▸ (h.1 _).part _⟩
  bind _ h hf _ _ := by
    refine .unit fun y => ?_
    rw [Function.update_apply]
    split
    · exact h.2 _ hf
    · exact h.1 y
  assign _ h _ _ _ _ _ := .unit h.1
  leave h _ := h
  extended he := absurd hc he

/-! ### Programs without components -/

/-- A part of a term selects no component that the term does not. -/
theorem Calls.straight (h : c.Calls a b) (ha : a.term.straight = true) :
    b.term.straight = true := by
  cases h with
  | init => exact ha
  | source =>
    rw [Term.straight, Bool.and_eq_true] at ha
    exact ha.2
  | content => exact ha
  | statement => exact Term.allStraight_iff.1 ha _ (by simp)
  | operand => exact Term.allStraight_iff.1 ha _ (by simp)
  | left => exact Term.allStraight_iff.1 ha _ (by simp)
  | right => exact Term.allStraight_iff.1 ha _ (by simp)
  | onTrue => exact Term.allStraight_iff.1 ha _ (by simp)
  | onFalse => exact Term.allStraight_iff.1 ha _ (by simp)

theorem straight_of_visits (h : c.Visits a b) (ha : a.term.straight = true) :
    b.term.straight = true := by
  induction h with
  | refl => exact ha
  | tail _ hstep ih => exact hstep.straight ih

theorem stable_lentStraight (ha : a.term.straight = true)
    (hx : c.extensions ≠ [] → Tidy c (c.Visits a)) : Stable c (c.Visits a) LentStraight :=
  .lent (fun _ h => h) (fun _ _ hok _ => straight_of_visits hok ha) fun he => (hx he).neat

/-! ### Assigned places -/

/-- **No component lies on any way** in the program: it uses no extension, or selects none. -/
def Componentless (c : Checker) (a : Site) : Prop :=
  c.extensions = [] ∨ a.term.straight = true ∧ (c.extensions ≠ [] → Tidy c (c.Visits a))

/-- **Without components the ways from a place that is assigned to end apart.** -/
theorem apart_of_assign (ho : c.Orderly root program)
    (hfree : c.Componentless ⟨.empty, root, program⟩)
    (hv : c.Visits ⟨.empty, root, program⟩ ⟨Γ, l, .assign sp p source⟩)
    (hsource : (c.apply Γ l source).result = .ok (Γ₁, T)) (hs : Γ.get? p.name = some slot)
    (ht : typeOf Γ₁ p = .ok t) : Γ₁.Apart p := by
  rcases hfree with hc | ⟨hstraight, hx⟩
  · have law : Stable c (c.Visits ⟨.empty, root, program⟩) LinearShapes := stable_linear hc
    obtain ⟨σ, hkept⟩ := law.source (.empty ho .empty) hv hs hsource
    exact hkept.shaped.apart_of_linear hkept.holds.1 (hkept.shaped.typeOf ht).ne_misfit
  · have law : Stable c (c.Visits ⟨.empty, root, program⟩) LentStraight :=
      stable_lentStraight hstraight hx
    obtain ⟨σ, hkept⟩ := law.source (.empty ho Lent.empty) hv hs hsource
    have hplace := straight_of_visits hv hstraight
    rw [Term.straight, Bool.and_eq_true] at hplace
    exact hkept.shaped.apart_of_straight hkept.holds hplace.1 (hkept.shaped.typeOf ht).ne_misfit

end Checker

end Ownership
