import Ownership.Proofs.Checking.Comparisons
import Ownership.Proofs.Checking.Compatibility

/-!
# A type compared with itself

A type need not be compatible with itself. The comparison goes on with what the first target of each
borrow stores, so it finds a type there and comes to an end, or there is none or no end
(`Ty.Grounded`). Where all targets of a borrow have one shape the shapes fall, so there is an end,
and it is enough that the first target of every borrow in a variable has a type
(`Env.FirstsTyped`): a union of borrows has the first target of one of them.

* `compatible_self`: **a type is compatible with itself just if it is grounded.**
* `Env.Shaped.grounded_iff`: **where the variables have shapes, they are grounded just if the first
  target of every borrow has a type.**
-/

namespace Ownership

variable {R : Bool → PlaceSet → PlaceSet → Prop} {variance : Variance} {Γ : Env} {n : Nat}
variable {a b t u T U : Ty} {g s : Shape} {σ : String → Shape} {m : Bool} {ps qs : PlaceSet}
variable {p : Place}

/-! ### First targets -/

theorem PlaceSet.first?_eq_some : ps.first? = some p ↔ p ∈ ps ∧ ∀ q ∈ ps, q = p ∨ p < q := by
  obtain ⟨l, hl⟩ := ps
  cases l with
  | nil => simp [first?, mem_def]
  | cons r l =>
    obtain ⟨hr, -⟩ := List.pairwise_cons.1 hl
    simp only [first?, mem_def, List.head?_cons, Option.some.injEq, List.mem_cons]
    constructor
    · rintro rfl
      exact ⟨.inl rfl, fun q hq => hq.imp_right (hr q)⟩
    · rintro ⟨rfl | hp, hleast⟩
      · rfl
      · rcases hleast r (.inl rfl) with e | hlt
        · exact e
        · exact absurd (Std.lt_trans hlt (hr p hp)) Std.lt_irrefl

/-- **The first of two sets of places is the first of one of them.** -/
theorem PlaceSet.first?_union (h : (ps ∪ qs).first? = some p) :
    ps.first? = some p ∨ qs.first? = some p := by
  obtain ⟨hp, hleast⟩ := first?_eq_some.1 h
  refine (mem_union.1 hp).imp (fun hp => ?_) fun hp => ?_
  · exact first?_eq_some.2 ⟨hp, fun q hq => hleast q (mem_union.2 (.inl hq))⟩
  · exact first?_eq_some.2 ⟨hp, fun q hq => hleast q (mem_union.2 (.inr hq))⟩

/-- The first of the places stands for the others, and `U` is stored there. -/
def Env.Stands (Γ : Env) (ps : PlaceSet) (U : Ty) : Prop :=
  ∃ p, ps.first? = some p ∧ typeOf Γ p = .ok U

namespace Ty

/-- **The first target of every borrow in the type has a type.** -/
def FirstsTyped (Γ : Env) (T : Ty) : Prop := ∀ m ps, (m, ps) ∈ T.borrows → ∃ U, Γ.Stands ps U

/-- **A comparison of the type with itself comes to an end.** It finds a type behind each borrow,
and goes on from there unless the types are only tested to be the same. -/
inductive Grounded (variance : Variance) (Γ : Env) : Ty → Prop where
  | intro {T : Ty} : T.FirstsTyped Γ → (∀ m ps U, (m, ps) ∈ T.borrows →
      ¬ (m = true ∧ variance = .invariant) → Γ.Stands ps U → Grounded variance Γ U) →
      Grounded variance Γ T

end Ty

/-- The first target of every borrow in a variable has a type. -/
def Env.FirstsTyped (Γ : Env) : Prop := ∀ x s, Γ.get? x = some s → s.ty.FirstsTyped Γ

/-- Every variable has a type that is compatible with itself. -/
def Env.Grounded (variance : Variance) (Γ : Env) : Prop :=
  ∀ x s, Γ.get? x = some s → s.ty.Grounded variance Γ

/-! ### Comparisons -/

/-- The comparison of a type with itself pairs every borrow with itself. -/
theorem Ty.alike_self : T.Alike R T ↔ ∀ m ps, (m, ps) ∈ T.borrows → R m ps ps := by
  induction T with
  | unit => exact ⟨fun _ _ _ hb => absurd hb List.not_mem_nil, fun _ => .unit⟩
  | int => exact ⟨fun _ _ _ hb => absurd hb List.not_mem_nil, fun _ => .int⟩
  | box t ih =>
    refine Iff.trans ⟨fun h => ?_, .box⟩ ih
    cases h with
    | box h => exact h
  | borrow m ps =>
    simp only [borrows, List.mem_singleton, Prod.mk.injEq]
    constructor
    · intro h
      cases h with
      | borrow h =>
        rintro _ _ ⟨rfl, rfl⟩
        exact h
    · exact fun h => .borrow (h m ps ⟨rfl, rfl⟩)
  | shadow t ih => exact Iff.trans ⟨fun h => h.of_left.of_right, fun h => .left (.right h)⟩ ih
  | compound ts ih =>
    simp only [borrows, allBorrows_eq, List.mem_flatMap]
    constructor
    · rintro h m ps ⟨t, ht, hb⟩
      cases h with
      | compound _ each =>
        obtain ⟨i, hi⟩ := List.mem_iff_getElem?.1 ht
        exact (ih t ht).1 (each i t t hi hi) m ps hb
    · intro h
      refine .compound rfl fun i t u ht hu => ?_
      cases ht.symm.trans hu
      have ht := List.mem_of_getElem? ht
      exact (ih t ht).2 fun m ps hb => h m ps ⟨t, ht, hb⟩

theorem grounded_of_compatibleUpTo (h : compatibleUpTo variance Γ Γ n T T = .ok true) :
    T.Grounded variance Γ := by
  induction n generalizing T with
  | zero => cases h
  | succ n ih =>
    rw [compatibleUpTo_succ, Ty.alike_self] at h
    refine .intro (fun m ps hb => ?_) fun m ps U hb hinv hU => ?_
    · obtain ⟨p, -, r, -, hp, -, hr, -⟩ := h m ps hb
      exact ⟨r, p, hp, hr⟩
    · obtain ⟨p, q, r₁, r₂, hp, hq, hr₁, hr₂, h⟩ := h m ps hb
      obtain ⟨p', hp', hU⟩ := hU
      cases hp.symm.trans hp'
      cases hp.symm.trans hq
      cases hr₁.symm.trans hU
      cases hr₁.symm.trans hr₂
      rw [if_neg hinv] at h
      exact ih h

/-- **A type is compatible with itself just if it is grounded.** -/
theorem compatible_self : compatible variance Γ T T Γ = .ok true ↔ T.Grounded variance Γ := by
  refine ⟨grounded_of_compatibleUpTo, fun h => ?_⟩
  induction h with
  | intro hfirsts _ ih =>
    refine compatible_of_compatibleUpTo
      (n := Γ.targets.length * Γ.targets.length + 3) (compatibleUpTo_succ.2 ?_)
    refine Ty.alike_self.2 fun m ps hb => ?_
    obtain ⟨U, p, hp, hU⟩ := hfirsts m ps hb
    refine ⟨p, p, U, U, hp, hp, hU, hU, ?_⟩
    split
    · rfl
    · rename_i hinv
      exact ih m ps U hb hinv ⟨p, hp, hU⟩

/-! ### Types of places -/

namespace Ty

theorem borrows_peel (t : Ty) : t.peel.borrows = t.borrows := by cases t <;> rfl

/-- **A union has typed first targets** if both types have. -/
theorem FirstsTyped.union (h : a.union b = some u) (ha : a.FirstsTyped Γ) (hb : b.FirstsTyped Γ) :
    u.FirstsTyped Γ := by
  have hj := joins_of_union h
  clear h
  induction hj with
  | unit => exact ha
  | int => exact ha
  | box _ ih => exact ih ha hb
  | @borrow m ps qs =>
    intro k rs hrs
    cases List.mem_singleton.1 hrs
    obtain ⟨U, p, hp, hU⟩ := ha m ps List.mem_cons_self
    obtain ⟨V, q, hq, hV⟩ := hb m qs List.mem_cons_self
    have hmem : p ∈ ps ∪ qs := PlaceSet.mem_union.2 (.inl (PlaceSet.first?_eq_some.1 hp).1)
    obtain ⟨r, hr, -⟩ := PlaceSet.exists_first ⟨p, hmem⟩
    rcases PlaceSet.first?_union hr with hr' | hr'
    · cases hp.symm.trans hr'
      exact ⟨U, p, hr, hU⟩
    · cases hq.symm.trans hr'
      exact ⟨V, q, hr, hV⟩
  | compound hcs _ ih =>
    obtain ⟨-, -, each⟩ := unionAll_getElem? hcs
    intro m ps hps
    obtain ⟨c, hc, hps⟩ := mem_borrows_compound.1 hps
    obtain ⟨i, hi⟩ := List.mem_iff_getElem?.1 hc
    obtain ⟨a, b, hai, hbi, -⟩ := each i c hi
    refine ih i a b c hai hbi hi (fun m ps h => ?_) (fun m ps h => ?_) m ps hps
    · exact ha m ps (mem_borrows_compound.2 ⟨a, List.mem_of_getElem? hai, h⟩)
    · exact hb m ps (mem_borrows_compound.2 ⟨b, List.mem_of_getElem? hbi, h⟩)
  | @shadow a b c _ _ ih =>
    refine ih ?_ ?_
    · rwa [FirstsTyped, borrows_peel]
    · rwa [FirstsTyped, borrows_peel]

end Ty

/-- **What is found at a place has typed first targets** if all variables have. -/
theorem Env.FirstsTyped.typeUpTo (h : Γ.FirstsTyped) (ht : typeUpTo Γ n p = .ok T) :
    T.FirstsTyped Γ := by
  induction n generalizing p T with
  | zero => cases ht
  | succ n ih =>
    obtain ⟨s, hs, hf | ⟨m, ps, rest, hf, hu⟩⟩ := typeUpTo_ok ht
    · exact fun m ps hb => h _ s hs m ps (Ty.borrows_of_reached hf hb)
    · exact unionOver_closed (Q := Ty.FirstsTyped Γ) Ty.FirstsTyped.union hu nofun
        (fun q _ u hq => ih hq) fun _ _ _ _ hb => absurd hb List.not_mem_nil

/-! ### Shapes -/

/-- **The referent of a borrow has a smaller shape** than the type that the borrow is in. -/
theorem Ty.Fits.referent (h : T.Fits σ s) (hb : (m, ps) ∈ T.borrows) :
    ∃ g, (∀ p ∈ ps, (σ p.name).part p.path = g) ∧ sizeOf g < sizeOf s := by
  induction h with
  | unit => cases hb
  | int => cases hb
  | box _ ih =>
    obtain ⟨g, hg, hlt⟩ := ih hb
    refine ⟨g, hg, ?_⟩
    simp only [Shape.box.sizeOf_spec]
    omega
  | @borrow _ _ g _ hg =>
    cases List.mem_singleton.1 hb
    refine ⟨g, hg, ?_⟩
    simp only [Shape.ref.sizeOf_spec]
    omega
  | shadow _ ih => exact ih hb
  | compound hl _ ih =>
    obtain ⟨t, ht, hb⟩ := mem_borrows_compound.1 hb
    obtain ⟨i, hi⟩ := List.mem_iff_getElem?.1 ht
    obtain ⟨s, hs⟩ := Refines.exists_getElem? hl hi
    obtain ⟨g, hg, hlt⟩ := ih i t s hi hs hb
    refine ⟨g, hg, ?_⟩
    have := List.sizeOf_lt_of_mem (List.mem_of_getElem? hs)
    simp only [Shape.compound.sizeOf_spec]
    omega

namespace Env

/-- **Where the variables have shapes, typed first targets suffice.** The shapes of what is compared
fall with every borrow that is followed. -/
theorem Shaped.grounded (h : Γ.Shaped σ) (hΓ : Γ.FirstsTyped) (hT : T.FirstsTyped Γ)
    (hs : T.Fits σ s) : T.Grounded variance Γ := by
  generalize hk : sizeOf s = k
  induction k using Nat.strongRecOn generalizing T s with
  | _ k ih =>
    refine .intro hT fun m ps U hb _ hU => ?_
    obtain ⟨p, hp, hU⟩ := hU
    obtain ⟨g, hg, hlt⟩ := hs.referent hb
    have hfit := h.typeOf hU
    rw [hg p (PlaceSet.first?_eq_some.1 hp).1] at hfit
    exact ih _ (hk ▸ hlt) (hΓ.typeUpTo hU) hfit rfl

/-- **Where the variables have shapes, they are grounded just if the first target of every borrow
has a type.** -/
theorem Shaped.grounded_iff (h : Γ.Shaped σ) : Γ.Grounded variance ↔ Γ.FirstsTyped := by
  refine ⟨fun hΓ x s hs => ?_, fun hΓ x s hs => h.grounded hΓ (hΓ x s hs) (h x s hs)⟩
  cases hΓ x s hs with
  | intro hfirsts _ => exact hfirsts

end Env

end Ownership
