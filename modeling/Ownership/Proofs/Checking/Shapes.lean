import Ownership.Proofs.Checking.Alike
import Ownership.Proofs.Checking.Lends

/-!
# Shapes

The types of a variable change while it is in scope, but its shape does not: what is stored there,
and behind every borrow what is stored at its targets, whichever they are. The shape of a place is
part of that of its variable (`Shape.part`), behind borrows or not, so it is known without following
any target.

* `Ty.Fits.reached`, `Ty.Fits.crossed`: a path leads to the same part of a type and of its shape.
* `Ty.Fits.union`: **types of one shape have a union of this shape.**
* `Env.Shaped.typeOf`: the type of a place has the shape of the place.
* `compatible_shape`: **compatible types have one shape.**
-/

namespace Ownership

/-- What is stored in a place, with all that borrows in it refer to. -/
inductive Shape where
  | unit
  | int
  | box (inner : Shape)
  | ref (mutable : Bool) (referent : Shape)
  | compound (components : List Shape)
  /-- The shape of a place that does not exist. -/
  | misfit

instance : Inhabited Shape := ⟨.misfit⟩

namespace Shape

variable {s : Shape} {π ρ : List Selector}

/-- The part that a path leads to, behind references or not. -/
def part : Shape → List Selector → Shape
  | s, [] => s
  | box s, .deref :: π => s.part π
  | ref _ s, .deref :: π => s.part π
  | compound ss, .index i :: π =>
    match ss[i]? with
    | some s => s.part π
    | none => .misfit
  | unit, _ :: _ | int, _ :: _ | misfit, _ :: _ => .misfit
  | box _, .index _ :: _ | ref .., .index _ :: _ | compound _, .deref :: _ => .misfit

@[simp] theorem part_nil (s : Shape) : s.part [] = s := by cases s <;> rfl

@[simp] theorem part_misfit (π : List Selector) : misfit.part π = .misfit := by
  cases π with
  | nil => rfl
  | cons a π => cases a <;> rfl

theorem part_append (s : Shape) (π ρ : List Selector) : s.part (π ++ ρ) = (s.part π).part ρ := by
  induction π generalizing s with
  | nil => rw [List.nil_append, part_nil]
  | cons a π ih =>
    cases s with
    | box s =>
      cases a with
      | deref => exact ih s
      | index i => exact (part_misfit ρ).symm
    | ref m s =>
      cases a with
      | deref => exact ih s
      | index i => exact (part_misfit ρ).symm
    | compound ss =>
      cases a with
      | deref => exact (part_misfit ρ).symm
      | index i =>
        simp only [List.cons_append, part]
        cases ss[i]? with
        | none => exact (part_misfit ρ).symm
        | some s => exact ih s
    | _ => cases a <;> exact (part_misfit ρ).symm

theorem sizeOf_component {a : Selector} (h : s.part [a] ≠ .misfit) :
    sizeOf (s.part [a]) < sizeOf s := by
  cases s with
  | box s =>
    cases a with
    | deref => simp [part]
    | index i => exact absurd rfl h
  | ref m s =>
    cases a with
    | deref =>
      simp only [part, ref.sizeOf_spec]
      omega
    | index i => exact absurd rfl h
  | compound ss =>
    cases a with
    | deref => exact absurd rfl h
    | index i =>
      simp only [part] at h ⊢
      cases hs : ss[i]? with
      | none => simp [hs] at h
      | some s =>
        have := List.sizeOf_lt_of_mem (List.mem_of_getElem? hs)
        simp only [compound.sizeOf_spec]
        omega
  | _ => cases a <;> exact absurd rfl h

/-- A proper part is smaller. -/
theorem sizeOf_part {a : Selector} (h : s.part (a :: π) ≠ .misfit) :
    sizeOf (s.part (a :: π)) < sizeOf s := by
  have split : ∀ (s : Shape) a π, s.part (a :: π) = (s.part [a]).part π :=
    fun s a π => part_append s [a] π
  induction π generalizing s a with
  | nil => exact sizeOf_component h
  | cons b π ih =>
    rw [split] at h ⊢
    have hrest := ih h
    have hone := sizeOf_component (s := s) (a := a) fun hm => h (by rw [hm, part_misfit])
    omega

/-- **No shape is a proper part of itself.** -/
theorem part_ne_self {a : Selector} (hs : s ≠ .misfit) : s.part (a :: π) ≠ s := by
  intro h
  have := sizeOf_part (h ▸ hs)
  rw [h] at this
  exact Nat.lt_irrefl _ this

end Shape

/-! ### Types of a shape -/

/-- **The type has the shape**, where variables have the shapes that `σ` gives them. All targets of
a borrow have one shape. A shadow hides nothing. -/
inductive Ty.Fits (σ : String → Shape) : Ty → Shape → Prop where
  | unit : Fits σ .unit .unit
  | int : Fits σ .int .int
  | box {t : Ty} {s : Shape} : Fits σ t s → Fits σ (.box t) (.box s)
  | borrow {m : Bool} {ps : PlaceSet} {s : Shape} : (∃ p, p ∈ ps) →
      (∀ p ∈ ps, (σ p.name).part p.path = s) → Fits σ (.borrow m ps) (.ref m s)
  | shadow {t : Ty} {s : Shape} : Fits σ t s → Fits σ (.shadow t) s
  | compound {ts : List Ty} {ss : List Shape} : ts.length = ss.length →
      (∀ (i : Nat) t s, ts[i]? = some t → ss[i]? = some s → Fits σ t s) →
      Fits σ (.compound ts) (.compound ss)

namespace Ty.Fits

variable {σ σ' : String → Shape} {t u g h old new : Ty} {ts gs hs : List Ty} {s s' : Shape}
variable {m : Bool} {ps : PlaceSet} {π rest : List Selector} {p : Place}

theorem ne_misfit (h : t.Fits σ s) : s ≠ .misfit := by
  induction h with
  | shadow _ ih => exact ih
  | _ => exact Shape.noConfusion

theorem borrowOf (m : Bool) (p : Place) :
    (Ty.borrowOf m p).Fits σ (.ref m ((σ p.name).part p.path)) :=
  .borrow ⟨p, PlaceSet.mem_singleton.2 rfl⟩ fun q hq => by rw [PlaceSet.mem_singleton.1 hq]

/-- A type has one shape. -/
theorem unique (h : t.Fits σ s) (h' : t.Fits σ s') : s = s' := by
  induction h generalizing s' with
  | unit => cases h'; rfl
  | int => cases h'; rfl
  | box _ ih =>
    cases h' with
    | box h' => rw [ih h']
  | borrow hp hs =>
    cases h' with
    | borrow _ hs' =>
      obtain ⟨p, hp⟩ := hp
      rw [← hs p hp, ← hs' p hp]
  | shadow _ ih =>
    cases h' with
    | shadow h' => exact ih h'
  | compound hl _ ih =>
    cases h' with
    | compound hl' hs' =>
      refine congrArg _ (List.ext_getElem? fun i => ?_)
      rename_i ts ss _ ss'
      cases ht : ts[i]? with
      | none =>
        rw [List.getElem?_eq_none_iff] at ht
        rw [List.getElem?_eq_none (by omega), List.getElem?_eq_none (by omega)]
      | some t =>
        obtain ⟨s, hs⟩ := Refines.exists_getElem? hl ht
        obtain ⟨s', hs₁⟩ := Refines.exists_getElem? hl' ht
        rw [hs, hs₁, ih i t s ht hs (hs' i t s' ht hs₁)]

/-- Only the shapes of variables that the type borrows from matter. -/
theorem congr (hσ : ∀ p ∈ t.borrowed, σ p.name = σ' p.name) (h : t.Fits σ s) : t.Fits σ' s := by
  induction h with
  | unit => exact .unit
  | int => exact .int
  | box _ ih => exact .box (ih hσ)
  | borrow hp hs =>
    refine .borrow hp fun p hm => ?_
    rw [← hσ p (mem_borrowed.2 ⟨_, lends_borrow.2 ⟨rfl, hm⟩⟩), hs p hm]
  | shadow _ ih => exact .shadow (ih hσ)
  | compound hl _ ih =>
    refine .compound hl fun i t s ht hs => ih i t s ht hs fun p hp => hσ p ?_
    obtain ⟨m, hp⟩ := mem_borrowed.1 hp
    exact mem_borrowed.2 ⟨m, lends_compound.2 ⟨t, List.mem_of_getElem? ht, hp⟩⟩

/-! ### Paths -/

/-- Where the path reaches a part of the type, it leads to the shape of it. -/
theorem reached (h : t.Fits σ s) (hf : t.follow π = .reached u) : u.Fits σ (s.part π) := by
  induction t, π, hf using Ty.reached_induction generalizing s with
  | here => rwa [Shape.part_nil]
  | box t π hf ih =>
    cases h with
    | box h => exact ih h
  | component ts i t π hi hf ih =>
    cases h with
    | compound hl hc =>
      obtain ⟨s, hs⟩ := Refines.exists_getElem? hl hi
      simp only [Shape.part, hs]
      exact ih (hc i t s hi hs)

/-- **Behind a borrow the path leads to the shape of what is found at each target.** -/
theorem crossed (h : t.Fits σ s) (hf : t.follow π = .crossed m ps rest) : (∃ p, p ∈ ps) ∧
    ∀ p ∈ ps, (σ p.name).part (p.path ++ rest) = s.part π := by
  induction t, π, hf using Ty.crossed_induction generalizing s with
  | here =>
    cases h with
    | borrow hp hs =>
      refine ⟨hp, fun p hm => ?_⟩
      rw [Shape.part_append, hs p hm]
      rfl
  | box t π hf ih =>
    cases h with
    | box h => exact ih h
  | component ts i t π hi hf ih =>
    cases h with
    | compound hl hc =>
      obtain ⟨s, hs⟩ := Refines.exists_getElem? hl hi
      simp only [Shape.part, hs]
      exact ih (hc i t s hi hs)

/-- Another part of the same shape leaves the shape as it is. -/
theorem replaceAt (h : t.Fits σ s) (hf : t.follow π = .reached old)
    (hn : ∀ s, old.Fits σ s → new.Fits σ s) : (t.replaceAt π new).Fits σ s := by
  induction t, π, hf using Ty.reached_induction generalizing s with
  | here =>
    rw [replaceAt_nil]
    exact hn s h
  | box t π hf ih =>
    cases h with
    | box h => exact .box (ih h)
  | component ts i t π hi hf ih =>
    cases h with
    | compound hl hc =>
      refine .compound (by simpa using hl) fun j w s hw hs => ?_
      rcases component_of_modify hw with ⟨w₀, rfl, hw₀, rfl⟩ | ⟨-, hw₀⟩
      · cases hi.symm.trans hw₀
        exact ih (hc i t s hi hs)
      · exact hc j w s hw₀ hs

/-! ### Unions -/

theorem peel (h : t.Fits σ s) : t.peel.Fits σ s := by
  cases h with
  | shadow h => exact h
  | unit => exact .unit
  | int => exact .int
  | box h => exact .box h
  | borrow hp hs => exact .borrow hp hs
  | compound hl hc => exact .compound hl hc

theorem unshadowed (h : t.Fits σ s) : t.unshadowed.Fits σ s := by
  induction h with
  | shadow _ ih => exact ih
  | unit => exact .unit
  | int => exact .int
  | box h => exact .box h
  | borrow hp hs => exact .borrow hp hs
  | compound hl hc => exact .compound hl hc

theorem beneath {f : Ty → Option Ty} (h : t.Fits σ s)
    (hf : ∀ b, (∀ c, b ≠ .shadow c) → b.Fits σ s → ∃ u, f b = some u ∧ u.Fits σ s) :
    ∃ u, t.beneath f = some u ∧ u.Fits σ s := by
  induction t with
  | shadow t ih =>
    cases h with
    | shadow h =>
      obtain ⟨u, hu, hs⟩ := ih h
      exact ⟨.shadow u, by rw [Ty.beneath, hu]; rfl, .shadow hs⟩
  | unit | int | box | borrow | compound => exact hf _ (fun _ e => by cases e) h

/-- Components that have unions one by one have them together. -/
theorem unionAll (hl : gs.length = hs.length)
    (hu : ∀ (i : Nat) g h, gs[i]? = some g → hs[i]? = some h → ∃ u, g.union h = some u) :
    ∃ us, Ty.unionAll gs hs = some us := by
  induction gs generalizing hs with
  | nil =>
    cases hs with
    | nil => exact ⟨[], rfl⟩
    | cons => cases hl
  | cons g gs ih =>
    cases hs with
    | nil => cases hl
    | cons h hs =>
      obtain ⟨u, hu₀⟩ := hu 0 g h rfl rfl
      obtain ⟨us, hus⟩ := ih (Nat.succ.inj hl) fun i => hu (i + 1)
      exact ⟨u :: us, by rw [Ty.unionAll, hu₀, hus]⟩

/-- **Types of one shape have a union of this shape.** -/
theorem union (hg : g.Fits σ s) (hh : h.Fits σ s) : ∃ u, g.union h = some u ∧ u.Fits σ s := by
  induction hg generalizing h with
  | unit =>
    rw [Ty.union]
    refine beneath hh fun b hb hs => ?_
    cases hs with
    | unit => exact ⟨_, rfl, .unit⟩
    | shadow => exact absurd rfl (hb _)
  | int =>
    rw [Ty.union]
    refine beneath hh fun b hb hs => ?_
    cases hs with
    | int => exact ⟨_, rfl, .int⟩
    | shadow => exact absurd rfl (hb _)
  | box _ ih =>
    rw [Ty.union]
    refine beneath hh fun b hb hs => ?_
    cases hs with
    | box hs =>
      obtain ⟨u, hu, hf⟩ := ih hs
      exact ⟨.box u, by simp [hu], .box hf⟩
    | shadow => exact absurd rfl (hb _)
  | borrow hp hs =>
    rw [Ty.union]
    refine beneath hh fun b hb hs' => ?_
    cases hs' with
    | borrow hp' hs' =>
      refine ⟨_, if_pos rfl, .borrow ?_ fun p hm => ?_⟩
      · obtain ⟨p, hp⟩ := hp
        exact ⟨p, PlaceSet.mem_union.2 (.inl hp)⟩
      · exact (PlaceSet.mem_union.1 hm).elim (hs p) (hs' p)
    | shadow => exact absurd rfl (hb _)
  | shadow _ ih =>
    obtain ⟨u, hu, hf⟩ := ih hh.peel
    exact ⟨.shadow u, by rw [Ty.union, hu]; rfl, .shadow hf⟩
  | compound hl _ ih =>
    rw [Ty.union]
    refine beneath hh fun b hb hs => ?_
    cases hs with
    | compound hl' hc' =>
      obtain ⟨us, hus⟩ := unionAll (hl.trans hl'.symm) fun i g h hg hh => by
        obtain ⟨s, hs⟩ := Refines.exists_getElem? hl hg
        obtain ⟨u, hu, -⟩ := ih i g s hg hs (hc' i h s hh hs)
        exact ⟨u, hu⟩
      obtain ⟨hl₁, hl₂, hcomp⟩ := Ty.unionAll_getElem? hus
      refine ⟨.compound us, by simp [hus], .compound (by omega) fun i u s hu hs => ?_⟩
      obtain ⟨g, h, hg, hh, hgh⟩ := hcomp i u hu
      obtain ⟨u', hu', hf⟩ := ih i g s hg hs (hc' i h s hh hs)
      cases hgh.symm.trans hu'
      exact hf
    | shadow => exact absurd rfl (hb _)

theorem of_union (hu : g.union h = some u) (hg : g.Fits σ s) (hh : h.Fits σ s) : u.Fits σ s := by
  obtain ⟨u', hu', hs⟩ := hg.union hh
  cases hu.symm.trans hu'
  exact hs

end Ty.Fits

/-! ### Types of places -/

section Places

variable {σ σ₁ σ₂ : String → Shape} {Γ Γ₁ Γ₂ : Env} {f : Place → Except Violation Ty}
variable {joined : Option Ty} {places : List Place} {T a b u : Ty} {s s' : Shape} {m : Bool}
variable {ps qs : PlaceSet} {p : Place} {n : Nat} {variance : Variance}

/-- **What unions keep holds of a union over places** if it holds of the type of each of them. -/
theorem unionOver_closed {Q : Ty → Prop}
    (union : ∀ {a b u : Ty}, a.union b = some u → Q a → Q b → Q u)
    (h : unionOver f joined places = .ok T) (hj : ∀ u, joined = some u → Q u)
    (hp : ∀ p ∈ places, ∀ u, f p = .ok u → Q u)
    (hnil : joined = none → places = [] → Q .unit) : Q T := by
  induction places generalizing joined with
  | nil =>
    cases h
    cases joined with
    | none => exact hnil rfl rfl
    | some u => exact hj u rfl
  | cons p ps ih =>
    rw [unionOver, Traced.bind_eq_ok] at h
    obtain ⟨u, hu, h⟩ := h
    have hhere : Q u := hp p List.mem_cons_self u hu
    have hlater : ∀ q ∈ ps, ∀ u, f q = .ok u → Q u :=
      fun q hq => hp q (List.mem_cons_of_mem _ hq)
    cases joined with
    | none => exact ih h (by rintro _ ⟨⟩; exact hhere) hlater nofun
    | some v =>
      simp only at h
      cases hv : v.union u with
      | none =>
        rw [hv] at h
        cases h
      | some w =>
        rw [hv] at h
        exact ih h (by rintro _ ⟨⟩; exact union hv (hj v rfl) hhere) hlater nofun

/-- A union over places of one shape has this shape. -/
theorem unionOver_fits (h : unionOver f joined places = .ok T)
    (hj : ∀ u, joined = some u → u.Fits σ s)
    (hp : ∀ p ∈ places, ∀ u, f p = .ok u → u.Fits σ s) (hne : joined ≠ none ∨ places ≠ []) :
    T.Fits σ s :=
  unionOver_closed (Q := fun u => u.Fits σ s) (fun hu ha hb => .of_union hu ha hb) h hj hp
    fun hnone hnil => hne.elim (absurd hnone) (absurd hnil)

/-- **There is a union over places of one shape.** -/
theorem exists_unionOver (hj : ∀ u, joined = some u → u.Fits σ s)
    (hp : ∀ p ∈ places, ∃ u, f p = .ok u ∧ u.Fits σ s) :
    ∃ T, unionOver f joined places = .ok T := by
  induction places generalizing joined with
  | nil => exact ⟨_, rfl⟩
  | cons p ps ih =>
    obtain ⟨u, hu, hfit⟩ := hp p List.mem_cons_self
    have hps : ∀ q ∈ ps, ∃ u, f q = .ok u ∧ u.Fits σ s :=
      fun q hq => hp q (List.mem_cons_of_mem _ hq)
    rw [unionOver, hu, Traced.ok_bind]
    cases joined with
    | none => exact ih (by rintro _ ⟨⟩; exact hfit) hps
    | some v =>
      obtain ⟨w, hw, hwfit⟩ := (hj v rfl).union hfit
      simp only [hw]
      exact ih (by rintro _ ⟨⟩; exact hwfit) hps

namespace Env

/-- **Every variable has a type of its shape.** -/
def Shaped (σ : String → Shape) (Γ : Env) : Prop := ∀ x s, Γ.get? x = some s → s.ty.Fits σ (σ x)

theorem Shaped.typeUpTo (h : Γ.Shaped σ) (ht : typeUpTo Γ n p = .ok T) :
    T.Fits σ ((σ p.name).part p.path) := by
  induction n generalizing p T with
  | zero => cases ht
  | succ n ih =>
    obtain ⟨slot, hs, hf | ⟨m, ps, rest, hf, ht⟩⟩ := typeUpTo_ok ht
    · exact (h _ slot hs).reached hf
    · obtain ⟨⟨t, ht₀⟩, hall⟩ := (h _ slot hs).crossed hf
      refine unionOver_fits ht (by simp) (fun q hq u hu => ?_) (.inr ?_)
      · -- each target leads to a place of the same shape
        obtain ⟨t, ht, rfl⟩ := List.mem_map.1 hq
        rw [← hall t ht]
        exact ih hu
      · exact List.ne_nil_of_mem (List.mem_map.2 ⟨t, ht₀, rfl⟩)

/-- **The type of a place has the shape of the place.** -/
theorem Shaped.typeOf (h : Γ.Shaped σ) (ht : typeOf Γ p = .ok T) :
    T.Fits σ ((σ p.name).part p.path) := h.typeUpTo ht

end Env

/-! ### Compatible types -/

/-- The first target of a borrow stands for the others. -/
theorem Ty.Fits.first (h : (Ty.borrow m ps).Fits σ (.ref m s)) (hp : ps.first? = some p) :
    (σ p.name).part p.path = s := by
  cases h with
  | borrow _ hs => exact hs p (List.mem_of_mem_head? hp)

/-- Types that are alike have one shape, if what their borrows refer to has. -/
theorem Ty.Alike.shape {R : Bool → PlaceSet → PlaceSet → Prop} (h : a.Alike R b)
    (hr : ∀ m ps qs s s', R m ps qs → (Ty.borrow m ps).Fits σ₁ (.ref m s) →
      (Ty.borrow m qs).Fits σ₂ (.ref m s') → s = s')
    (ha : a.Fits σ₁ s) (hb : b.Fits σ₂ s') : s = s' := by
  induction h generalizing s s' with
  | unit =>
    cases ha
    cases hb
    rfl
  | int =>
    cases ha
    cases hb
    rfl
  | box _ ih =>
    cases ha with
    | box ha =>
      cases hb with
      | box hb => rw [ih ha hb]
  | borrow h =>
    cases ha with
    | borrow hp hs =>
      cases hb with
      | borrow hq hs' => rw [hr _ _ _ _ _ h (.borrow hp hs) (.borrow hq hs')]
  | left _ ih =>
    cases ha with
    | shadow ha => exact ih ha hb
  | right _ ih =>
    cases hb with
    | shadow hb => exact ih ha hb
  | @compound as bs hl _ ih =>
    cases ha with
    | compound hla ha =>
      cases hb with
      | compound hlb hb =>
        refine congrArg _ (List.ext_getElem? fun i => ?_)
        cases hai : as[i]? with
        | none =>
          rw [List.getElem?_eq_none_iff] at hai
          rw [List.getElem?_eq_none (by omega), List.getElem?_eq_none (by omega)]
        | some a =>
          obtain ⟨s, hs⟩ := Refines.exists_getElem? hla hai
          obtain ⟨b, hbi⟩ := Refines.exists_getElem? hl hai
          obtain ⟨s', hs'⟩ := Refines.exists_getElem? hlb hbi
          rw [hs, hs', ih i a b hai hbi (ha i a s hai hs) (hb i b s' hbi hs')]

/-- **Compatible types have one shape.** Types that are the same have one shape only in the same
surroundings, so the surroundings are the same or types are always compared by their shapes. -/
theorem compatibleUpTo_shape (hv : variance = .covariant ∨ σ₁ = σ₂) (h₁ : Γ₁.Shaped σ₁)
    (h₂ : Γ₂.Shaped σ₂) (h : compatibleUpTo variance Γ₁ Γ₂ n a b = .ok true) (ha : a.Fits σ₁ s)
    (hb : b.Fits σ₂ s') : s = s' := by
  induction n generalizing a b s s' with
  | zero => cases h
  | succ n ih =>
    refine (compatibleUpTo_succ.1 h).shape (fun m ps qs s s' hr hp hq => ?_) ha hb
    obtain ⟨p, q, r₁, r₂, hp₀, hq₀, hr₁, hr₂, hr⟩ := hr
    have hf₁ : r₁.Fits σ₁ s := hp.first hp₀ ▸ h₁.typeOf hr₁
    have hf₂ : r₂.Fits σ₂ s' := hq.first hq₀ ▸ h₂.typeOf hr₂
    split at hr
    · rename_i hinv
      obtain rfl : σ₁ = σ₂ := hv.resolve_left (by rw [hinv.2]; nofun)
      subst hr
      exact hf₁.unique hf₂
    · exact ih hr hf₁ hf₂

theorem compatible_shape (hv : variance = .covariant ∨ σ₁ = σ₂) (h₁ : Γ₁.Shaped σ₁)
    (h₂ : Γ₂.Shaped σ₂) (h : compatible variance Γ₁ a b Γ₂ = .ok true) (ha : a.Fits σ₁ s)
    (hb : b.Fits σ₂ s') : s = s' := compatibleUpTo_shape hv h₁ h₂ h ha hb

end Places

end Ownership
