import Ownership.Proofs.Checking.Apart
import Ownership.Proofs.Checking.Bounds
import Ownership.Proofs.Checking.Pairs
import Ownership.Proofs.Checking.Simulations

/-!
# Where shapes decide

Types are compared by the first targets of their borrows, and these by what is found there. If all
targets of a borrow have one shape, and every place that is borrowed has a type at all
(`LentTyped`), then nothing is left of that but the shapes: types are compatible if they have the
same one. The checker does not ensure it. A place behind a borrow may be borrowed that has no type,
and one arm of a conditional may move out what the other one borrows a part of.

* `compatible_of_fits`: **types of one shape are compatible**, where all that is borrowed has a
  type.
* `Checker.Compares`: what is compared in a conditional.
-/

namespace Ownership

variable {σ σ₁ σ₂ : String → Shape} {Γ Γ₁ Γ₂ : Env} {a b T U : Ty} {g s : Shape} {p : Place}
variable {x : String} {k : Slot} {ps : PlaceSet} {variance : Variance}
variable {R : Bool → PlaceSet → PlaceSet → Prop}

theorem PlaceSet.exists_first (h : ∃ p, p ∈ ps) : ∃ p, ps.first? = some p ∧ p ∈ ps := by
  obtain ⟨q, hq⟩ := h
  cases hp : ps.first? with
  | none =>
    rw [PlaceSet.first?, List.head?_eq_none_iff] at hp
    rw [PlaceSet.mem_def, hp] at hq
    cases hq
  | some p => exact ⟨p, rfl, List.mem_of_mem_head? hp⟩

namespace Ty

theorem unshadowed_ne_shadow (t u : Ty) : t.unshadowed ≠ .shadow u := by
  induction t with
  | shadow t ih => exact ih
  | _ => exact nofun

theorem lends_unshadowed {m : Bool} (t : Ty) : t.unshadowed.Lends m p ↔ t.Lends m p := by
  induction t with
  | shadow t ih => exact ih.trans lends_shadow.symm
  | _ => exact Iff.rfl

/-- Shadows around the second type may be left out. -/
theorem Fits.alike_of_unshadowed (hb : b.Fits σ₂ s)
    (h : ∀ c, (∀ t, c ≠ .shadow t) → (∀ m p, c.Lends m p → b.Lends m p) → c.Fits σ₂ s →
      a.Alike R c) : a.Alike R b :=
  .of_unshadowed (h _ b.unshadowed_ne_shadow (fun _ _ => (lends_unshadowed b).1) hb.unshadowed)

/-- **Types of one shape are alike**, if that holds of their borrows, whose referents are smaller
ones. -/
theorem Fits.alike (ha : a.Fits σ₁ s) (hb : b.Fits σ₂ s)
    (hR : ∀ m ps qs g, (∀ p ∈ ps, a.Lends m p) → (∀ q ∈ qs, b.Lends m q) →
      (Ty.borrow m ps).Fits σ₁ (.ref m g) → (Ty.borrow m qs).Fits σ₂ (.ref m g) →
      sizeOf g < sizeOf s → R m ps qs) : a.Alike R b := by
  induction ha generalizing b with
  | shadow _ ih =>
    exact .left (ih hb fun m ps qs g hp => hR m ps qs g fun p hm => lends_shadow.2 (hp p hm))
  | unit =>
    refine hb.alike_of_unshadowed fun c hne _ hc => ?_
    cases hc with
    | unit => exact .unit
    | shadow => exact absurd rfl (hne _)
  | int =>
    refine hb.alike_of_unshadowed fun c hne _ hc => ?_
    cases hc with
    | int => exact .int
    | shadow => exact absurd rfl (hne _)
  | box _ ih =>
    refine hb.alike_of_unshadowed fun c hne hlends hc => ?_
    cases hc with
    | shadow => exact absurd rfl (hne _)
    | box hc =>
      refine .box (ih hc fun m ps qs g hp hq h₁ h₂ hg => hR m ps qs g ?_ ?_ h₁ h₂ ?_)
      · exact fun p hm => lends_box.2 (hp p hm)
      · exact fun q hm => hlends m q (lends_box.2 (hq q hm))
      · simp only [Shape.box.sizeOf_spec]
        omega
  | @borrow m ps g hp hps =>
    refine hb.alike_of_unshadowed fun c hne hlends hc => ?_
    cases hc with
    | shadow => exact absurd rfl (hne _)
    | @borrow _ qs _ hq hqs =>
      refine .borrow (hR m ps qs g (fun p hm => lends_borrow.2 ⟨rfl, hm⟩)
        (fun q hm => hlends m q (lends_borrow.2 ⟨rfl, hm⟩)) (.borrow hp hps) (.borrow hq hqs) ?_)
      simp only [Shape.ref.sizeOf_spec]
      omega
  | compound hl _ ih =>
    refine hb.alike_of_unshadowed fun c hne hlends hc => ?_
    cases hc with
    | shadow => exact absurd rfl (hne _)
    | compound hl' hcs =>
      refine .compound (hl.trans hl'.symm) fun i a b ha hb => ?_
      obtain ⟨s, hs⟩ := Refines.exists_getElem? hl ha
      refine ih i a s ha hs (hcs i b s hb hs) fun m ps qs g hp hq h₁ h₂ hg =>
        hR m ps qs g ?_ ?_ h₁ h₂ ?_
      · exact fun p hm => lends_compound.2 ⟨a, List.mem_of_getElem? ha, hp p hm⟩
      · exact fun q hm => hlends m q (lends_compound.2 ⟨b, List.mem_of_getElem? hb, hq q hm⟩)
      · have := List.sizeOf_lt_of_mem (List.mem_of_getElem? hs)
        simp only [Shape.compound.sizeOf_spec]
        omega

end Ty

/-! ### Types of all that is borrowed -/

/-- **Every place that is borrowed has a type**, also if it is borrowed by what is evaluated. -/
def LentTyped : Judgement := fun _ Γ T =>
  (∀ x s m p, Γ.get? x = some s → s.ty.Lends m p → ∃ U, typeOf Γ p = .ok U) ∧
    ∀ m p, T.Lends m p → ∃ U, typeOf Γ p = .ok U

namespace Kept

/-- What is said of the environment holds of each type in it. -/
theorem slot (h : Kept LentTyped σ Γ T) (hk : Γ.get? x = some k) : Kept LentTyped σ Γ k.ty :=
  ⟨h.shaped, ⟨_, h.shaped x k hk⟩, h.holds.1, fun m p => h.holds.1 x k m p hk⟩

/-- And of what is found at a place. -/
theorem found (h : Kept LentTyped σ Γ T) (hU : typeOf Γ p = .ok U) : Kept LentTyped σ Γ U := by
  refine ⟨h.shaped, ⟨_, h.shaped.typeOf hU⟩, h.holds.1, fun m q hq => ?_⟩
  obtain ⟨x, s, -, hs, hq⟩ := Env.lends_of_typeOf hU hq
  exact h.holds.1 x s m q hs hq

end Kept

/-- **Types of one shape are compatible**, where every borrowed place has a type. -/
theorem compatible_of_fits (h₁ : Kept LentTyped σ₁ Γ₁ a) (h₂ : Kept LentTyped σ₂ Γ₂ b)
    (ha : a.Fits σ₁ s) (hb : b.Fits σ₂ s) : compatible .covariant Γ₁ a b Γ₂ = .ok true := by
  -- by the size of the shape, which falls with every borrow that is followed
  refine compatible_of_compatibleUpTo (n := sizeOf s + 1) ?_
  generalize hk : sizeOf s = k
  induction k using Nat.strongRecOn generalizing a b s with
  | _ k ih =>
    rw [compatibleUpTo_succ]
    refine ha.alike hb fun m ps qs g hp hq hps hqs hg => ?_
    cases hps with
    | borrow hne hps =>
      cases hqs with
      | borrow hne' hqs =>
        obtain ⟨p, hfirst, hp₀⟩ := PlaceSet.exists_first hne
        obtain ⟨q, hfirst', hq₀⟩ := PlaceSet.exists_first hne'
        obtain ⟨r₁, hr₁⟩ := h₁.holds.2 m p (hp p hp₀)
        obtain ⟨r₂, hr₂⟩ := h₂.holds.2 m q (hq q hq₀)
        have hf₁ := h₁.shaped.typeOf hr₁
        have hf₂ := h₂.shaped.typeOf hr₂
        rw [hps p hp₀] at hf₁
        rw [hqs q hq₀] at hf₂
        refine ⟨p, q, r₁, r₂, hfirst, hfirst', hr₁, hr₂, ?_⟩
        rw [if_neg (by simp)]
        exact compatibleUpTo_mono (ih _ (hk ▸ hg) (h₁.found hr₁) (h₂.found hr₂) hf₁ hf₂ rfl)
          (by omega)

/-- **What is compatible under any policy is so by its shape.** -/
theorem compatible_covariant (h₁ : Kept LentTyped σ Γ₁ a) (h₂ : Kept LentTyped σ Γ₂ b)
    (h : compatible variance Γ₁ a b Γ₂ = .ok true) :
    compatible .covariant Γ₁ a b Γ₂ = .ok true := by
  obtain ⟨s, ha⟩ := h₁.fits
  obtain ⟨s', hb⟩ := h₂.fits
  cases compatible_shape (.inr rfl) h₁.shaped h₂.shaped h ha hb
  exact compatible_of_fits h₁ h₂ ha hb

/-! ### Borrows of integers -/

/-- The variables of `N` are integers, and all others are borrows of integers. -/
def Shape.level (N : List String) (x : String) : Shape := if x ∈ N then .int else .ref true .int

/-- A borrow of variables of `N`, for writing. -/
def Ty.lendsFrom (N : List String) : Ty → Bool
  | .borrow true ps => ps.first?.isSome && ps.toList.all fun p => p.path = [] && p.name ∈ N
  | _ => false

/-- Nothing, an integer or a borrow of variables of `N`. -/
def Ty.level (N : List String) (T : Ty) : Bool := T = .unit || T = .int || T.lendsFrom N

/-- **Variables of `N` are integers**, and all others are borrows of these. -/
def Env.level (N : List String) (Γ : Env) : Bool :=
  N.all (fun x => (Γ.get? x).map Slot.ty = some .int) &&
    Γ.entries.all fun e => e.1 ∈ N || e.2.ty.lendsFrom N

section Level

variable {N : List String}

theorem Shape.linear_level (x : String) : (Shape.level N x).Linear := by
  unfold Shape.level
  split
  · exact trivial
  · exact trivial

theorem Ty.lendsFrom_spec (h : T.lendsFrom N = true) :
    T.Fits (Shape.level N) (.ref true .int) ∧ ∀ m p, T.Lends m p → p.path = [] ∧ p.name ∈ N := by
  unfold Ty.lendsFrom at h
  split at h
  · rename_i ps
    obtain ⟨hfirst, hall⟩ := Bool.and_eq_true_iff.1 h
    have hps : ∀ p ∈ ps, p.path = [] ∧ p.name ∈ N := fun p hp => by
      simpa using List.all_eq_true.1 hall p hp
    obtain ⟨p, hp⟩ := Option.isSome_iff_exists.1 hfirst
    refine ⟨.borrow ⟨p, List.mem_of_mem_head? hp⟩ fun q hq => ?_, fun m q hq =>
      hps q (Ty.lends_borrow.1 hq).2⟩
    rw [(hps q hq).1, Shape.level, if_pos (hps q hq).2]
    rfl
  · cases h

theorem Ty.level_spec (h : T.level N = true) :
    (∃ s, T.Fits (Shape.level N) s) ∧ ∀ m p, T.Lends m p → p.path = [] ∧ p.name ∈ N := by
  simp only [Ty.level, Bool.or_eq_true, decide_eq_true_eq] at h
  obtain (rfl | rfl) | h := h
  · exact ⟨⟨_, .unit⟩, nofun⟩
  · exact ⟨⟨_, .int⟩, nofun⟩
  · exact ⟨⟨_, (Ty.lendsFrom_spec h).1⟩, (Ty.lendsFrom_spec h).2⟩

/-- **Shapes decide among integers and borrows of them.** -/
theorem Kept.of_level (hΓ : Γ.level N = true) (hT : T.level N = true) :
    Kept LentTyped (Shape.level N) Γ T := by
  obtain ⟨hN, hall⟩ := Bool.and_eq_true_iff.1 hΓ
  have int : ∀ x ∈ N, ∃ l, Γ.get? x = some ⟨.int, l⟩ := by
    intro x hx
    have hsome := of_decide_eq_true (List.all_eq_true.1 hN x hx)
    obtain ⟨⟨t, l⟩, hs, rfl⟩ := Option.map_eq_some_iff.1 hsome
    exact ⟨l, hs⟩
  have typed : ∀ p : Place, p.path = [] ∧ p.name ∈ N → ∃ U, typeOf Γ p = .ok U := by
    rintro ⟨x, -⟩ ⟨rfl, hx⟩
    obtain ⟨l, hs⟩ := int x hx
    exact ⟨.int, typeOf_of_typeUpTo (n := 1) (typeUpTo_of_reached hs (Ty.follow_nil _))⟩
  have slots : ∀ x s, Γ.get? x = some s →
      s.ty.Fits (Shape.level N) (Shape.level N x) ∧
        ∀ m p, s.ty.Lends m p → p.path = [] ∧ p.name ∈ N := by
    intro x s hs
    by_cases hx : x ∈ N
    · obtain ⟨l, hs'⟩ := int x hx
      cases hs.symm.trans hs'
      rw [Shape.level, if_pos hx]
      exact ⟨.int, nofun⟩
    · have hlends := List.all_eq_true.1 hall _ (NameMap.mem_entries_iff.2 hs)
      simp only [Bool.or_eq_true, decide_eq_true_eq, hx, false_or] at hlends
      rw [Shape.level, if_neg hx]
      exact Ty.lendsFrom_spec hlends
  exact ⟨fun x s hs => (slots x s hs).1, (Ty.level_spec hT).1,
    fun x s m p hs hl => typed p ((slots x s hs).2 m p hl),
    fun m p hl => typed p ((Ty.level_spec hT).2 m p hl)⟩

end Level

namespace Checker

/-- **The two sides of a conditional that are compared**: what its operands are, or what its arms
leave. -/
inductive Compares (c : Checker) : Site → Env × Ty → Env × Ty → Prop where
  | operands {Γ Γ₁ : Env} {l : Lifetime} {sp : Span} {o : Nat} {e : Bool}
      {lhs rhs onTrue onFalse : Term} {T U : Ty} :
      formOf? c.extensions o = some (.conditional e) → c.Operands Γ l lhs rhs (Γ₁, [T, U]) →
      Compares c ⟨Γ, l, .ext sp o [lhs, rhs, onTrue, onFalse]⟩ (Γ₁, T) (Γ₁, U)
  | arms {Γ Γ₁ : Env} {l : Lifetime} {sp : Span} {o : Nat} {e : Bool}
      {lhs rhs onTrue onFalse : Term} {Ts : List Ty} {left right : Env × Ty} :
      formOf? c.extensions o = some (.conditional e) → c.Operands Γ l lhs rhs (Γ₁, Ts) →
      (c.apply Γ₁ l onTrue).result = .ok left → (c.apply Γ₁ l onFalse).result = .ok right →
      Compares c ⟨Γ, l, .ext sp o [lhs, rhs, onTrue, onFalse]⟩ left right

end Checker

end Ownership
