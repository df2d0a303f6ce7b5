import Ownership.Proofs.Checking.Accepting
import Ownership.Proofs.Checking.Bounds
import Ownership.Proofs.Checking.Pairs

/-!
# Where less has been moved out

An environment is clearer than another one if it differs in that some shadows are missing
(`Env.Clearer`). It holds the same borrows, so it prohibits the same, and a place leads the same way
in it, further if anything. So it passes every test that the other one passes, and goes on to one
that is clearer again.

* `Env.Clearer.typeOf`, `Env.Clearer.compatible`: **places have clearer types, and what is
  compatible stays so.**
* `Env.Clearer.write`, `Env.Clearer.join`: **writes and joins that succeed do so.**
-/

namespace Ownership

variable {Γ Γ₁ Γ₂ Γ' Δ Δ₁ Δ₂ Δ' J : Env} {a a' b b' c T T' U ty : Ty} {s : Slot} {l : Lifetime}
variable {p : Place} {x : String} {n : Nat} {strong : Bool}
variable {R R' : Bool → PlaceSet → PlaceSet → Prop}

namespace Ty.Clearer

theorem refl (t : Ty) : t.Clearer t := Below.refl (fun _ => rfl) t

/-- **The same borrows are in both types.** -/
theorem borrows_eq (h : a.Clearer b) : a.borrows = b.borrows := by
  induction h with
  | unit => rfl
  | int => rfl
  | box _ ih => exact ih
  | borrow e => rw [e]
  | shadow _ ih => exact ih
  | hidden _ ih => exact ih
  | @compound as bs hl _ ih =>
    rw [borrows, borrows, allBorrows_eq, allBorrows_eq, List.flatMap_def, List.flatMap_def]
    refine congrArg List.flatten (List.ext_getElem (by simpa using hl) fun i hi hi' => ?_)
    simp only [List.length_map] at hi hi'
    simpa using ih i as[i] bs[i] (List.getElem?_eq_getElem hi) (List.getElem?_eq_getElem hi')

/-- What is whole has no shadow to take off. -/
theorem eq_of_defined (h : a.Clearer b) (hb : b.defined = true) : a = b := by
  induction h with
  | unit => rfl
  | int => rfl
  | box _ ih => rw [ih hb]
  | borrow e => rw [e]
  | shadow => cases hb
  | hidden => cases hb
  | @compound as bs hl _ ih =>
    rw [Ty.defined, allDefined_eq, List.all_eq_true] at hb
    refine congrArg compound (List.ext_getElem hl fun i hi hi' => ?_)
    exact ih i as[i] bs[i] (List.getElem?_eq_getElem hi) (List.getElem?_eq_getElem hi')
      (hb _ (List.getElem_mem hi'))

/-- **Types with fewer shadows have a union with fewer shadows.** -/
theorem union (h : a.union b = some c) (ha : a'.Clearer a) (hb : b'.Clearer b) :
    ∃ c', a'.union b' = some c' ∧ c'.Clearer c :=
  Below.union (fun _ _ _ _ hp hq => by rw [hp, hq]) h ha hb

/-- **Types stay alike without some of their shadows.** -/
theorem alike (h : a.Alike R b) (ha : a'.Clearer a) (hb : b'.Clearer b)
    (hR : ∀ m ps qs, R m ps qs → R' m ps qs) : a'.Alike R' b' := by
  induction h generalizing a' b' with
  | unit =>
    cases ha
    cases hb
    exact .unit
  | int =>
    cases ha
    cases hb
    exact .int
  | box _ ih =>
    cases ha with
    | box ha =>
      cases hb with
      | box hb => exact .box (ih ha hb)
  | borrow h =>
    cases ha with
    | borrow e =>
      cases hb with
      | borrow e' =>
        subst e e'
        exact .borrow (hR _ _ _ h)
  | compound hl _ ih =>
    cases ha with
    | compound hla ha =>
      cases hb with
      | compound hlb hb =>
        refine .compound (by omega) fun i a' b' ha' hb' => ?_
        obtain ⟨a, ha₀⟩ := Refines.exists_getElem? hla ha'
        obtain ⟨b, hb₀⟩ := Refines.exists_getElem? hlb hb'
        exact ih i a b ha₀ hb₀ (ha i a' a ha' ha₀) (hb i b' b hb' hb₀)
  | left _ ih =>
    cases ha with
    | shadow ha => exact .left (ih ha hb)
    | hidden ha => exact ih ha hb
  | right _ ih =>
    cases hb with
    | shadow hb => exact .right (ih ha hb)
    | hidden hb => exact ih ha hb

end Ty.Clearer

namespace Env

/-- The variables of the first environment have types below those in the second one. -/
def Beneath (le : PlaceSet → PlaceSet → Prop) (Γ Δ : Env) : Prop := ∀ x, Option.Rel
  (fun s' s : Slot => s'.ty.Below le s.ty ∧ s'.lifetime = s.lifetime) (Γ.get? x) (Δ.get? x)

/-- **Less has been moved out of the first environment**, and that is all in which they differ. -/
abbrev Clearer : Env → Env → Prop := Beneath Eq

/-! ### Slots -/

namespace Beneath

variable {le : PlaceSet → PlaceSet → Prop}

theorem refl (hle : ∀ ps, le ps ps) (Γ : Env) : Γ.Beneath le Γ := by
  intro x
  cases Γ.get? x with
  | none => exact .none
  | some s => exact .some ⟨.refl hle s.ty, rfl⟩

theorem slot (h : Γ.Beneath le Δ) (hs : Δ.get? x = some s) :
    ∃ t, Γ.get? x = some ⟨t, s.lifetime⟩ ∧ t.Below le s.ty := by
  have hx := h x
  rw [hs] at hx
  generalize Γ.get? x = o at hx
  cases hx with
  | @some s' _ hs' => exact ⟨s'.ty, by rw [← hs'.2], hs'.1⟩

theorem slot' (h : Γ.Beneath le Δ) (hs : Γ.get? x = some s) :
    ∃ t, Δ.get? x = some ⟨t, s.lifetime⟩ ∧ s.ty.Below le t := by
  have hx := h x
  rw [hs] at hx
  generalize Δ.get? x = o at hx
  cases hx with
  | @some _ s' hs' => exact ⟨s'.ty, by rw [hs'.2], hs'.1⟩

theorem get?_eq_none (h : Γ.Beneath le Δ) : Γ.get? x = none ↔ Δ.get? x = none := by
  have hx := h x
  generalize Γ.get? x = o at hx ⊢
  generalize Δ.get? x = o' at hx ⊢
  cases hx <;> simp

theorem contains (h : Γ.Beneath le Δ) (x : String) : Γ.contains x = Δ.contains x := by
  rw [Bool.eq_iff_iff, ← Bool.not_eq_false, ← Bool.not_eq_false, NameMap.contains_eq_false_iff,
    NameMap.contains_eq_false_iff, h.get?_eq_none]

theorem insert (h : Γ.Beneath le Δ) (ht : T'.Below le T) (x : String) (l : Lifetime) :
    Beneath le (Γ.insert x ⟨T', l⟩) (Δ.insert x ⟨T, l⟩) := by
  intro y
  rw [NameMap.get?_insert, NameMap.get?_insert]
  split
  · exact .some ⟨ht, rfl⟩
  · exact h y

theorem dropLifetime (h : Γ.Beneath le Δ) (l : Lifetime) :
    Beneath le (Γ.dropLifetime l) (Δ.dropLifetime l) := by
  intro x
  rw [Env.dropLifetime, Env.dropLifetime, NameMap.get?_filter, NameMap.get?_filter]
  have hx := h x
  generalize Γ.get? x = o at hx ⊢
  generalize Δ.get? x = o' at hx ⊢
  cases hx with
  | none => exact .none
  | some hs =>
    simp only [Option.filter, hs.2]
    split
    · exact .some hs
    · exact .none

theorem eraseAll (h : Γ.Beneath le Δ) (names : List String) :
    Beneath le (NameMap.eraseAll Γ names) (NameMap.eraseAll Δ names) := by
  intro x
  rw [NameMap.get?_eraseAll, NameMap.get?_eraseAll]
  split
  · exact .none
  · exact h x

/-- Variables live for as long in both environments. -/
theorem within (h : Γ.Beneath le Δ) (T : Ty) (l : Lifetime) : Γ.within T l = Δ.within T l := by
  rw [Env.within, Env.within]
  refine congrArg (List.all T.borrowed) (funext fun p => ?_)
  have hx := h p.name
  generalize Γ.get? p.name = o at hx ⊢
  generalize Δ.get? p.name = o' at hx ⊢
  cases hx with
  | none => rfl
  | some hs => rw [Option.any_some, Option.any_some, hs.2]

/-- **What is available is so in an environment beneath.** -/
theorem availability {write : Bool} (h : Γ.Beneath le Δ)
    (ha : availability Δ p write = .available) :
    Ownership.availability Γ p write = .available := by
  rw [Ownership.availability] at ha ⊢
  cases hs : Δ.get? p.name with
  | none =>
    rw [hs] at ha
    cases ha
  | some s =>
    obtain ⟨t, ht, hc⟩ := h.slot hs
    have hf := hc.follow p.path
    simp only [hs] at ha
    simp only [ht]
    generalize t.follow p.path = w at hf ⊢
    generalize s.ty.follow p.path = w' at hf ha
    cases hf with
    | @reached t u htu =>
      simp only at ha ⊢
      split at ha
      · rename_i hu
        simp only [Bool.or_eq_true] at hu ⊢
        rw [if_pos (hu.imp_right htu.defined)]
      · cases ha
    | crossed => exact ha
    | shadowed => cases ha
    | notReference => cases ha
    | misfit => cases ha

end Beneath

namespace Clearer

/-! ### Tests -/

/-- A slot of the clearer environment has a counterpart with the same borrows. -/
theorem of_mem_values (h : Γ.Clearer Δ) (hs : s ∈ Γ.values) :
    ∃ s' ∈ Δ.values, s.ty.borrows = s'.ty.borrows := by
  obtain ⟨x, hx⟩ := NameMap.mem_values_iff.1 hs
  obtain ⟨t, ht, hc⟩ := h.slot' hx
  exact ⟨_, NameMap.mem_values ht, Ty.Clearer.borrows_eq hc⟩

theorem readProhibited (h : Γ.Clearer Δ) (hp : Δ.readProhibited p = false) :
    Γ.readProhibited p = false := by
  rw [Env.readProhibited, List.any_eq_false] at hp ⊢
  intro s hs
  obtain ⟨s', hs', e⟩ := h.of_mem_values hs
  rw [Ty.prohibitsReading, e]
  exact hp s' hs'

theorem writeProhibited (h : Γ.Clearer Δ) (hp : Δ.writeProhibited p = false) :
    Γ.writeProhibited p = false := by
  rw [Env.writeProhibited, List.any_eq_false] at hp ⊢
  intro s hs
  obtain ⟨s', hs', e⟩ := h.of_mem_values hs
  rw [Ty.prohibitsWriting, e]
  exact hp s' hs'

/-! ### Types of places -/

theorem typeUpTo (h : Γ.Clearer Δ) (ht : typeUpTo Δ n p = .ok T) :
    ∃ T', typeUpTo Γ n p = .ok T' ∧ T'.Clearer T := by
  induction n generalizing p T with
  | zero => cases ht
  | succ n ih =>
    obtain ⟨s, hs, hf | ⟨m, ps, rest, hf, hu⟩⟩ := typeUpTo_ok ht
    · obtain ⟨t, hs', hc⟩ := h.slot hs
      obtain ⟨T', hf', hT⟩ := hc.reached hf
      exact ⟨T', typeUpTo_of_reached hs' hf', hT⟩
    · obtain ⟨t, hs', hc⟩ := h.slot hs
      obtain ⟨_, hf', rfl⟩ := hc.crossed hf
      rw [typeUpTo_of_crossed hs' hf']
      exact unionOver_below (fun _ => rfl) (fun _ _ _ _ hp hq => by rw [hp, hq]) hu
        (.inl ⟨rfl, rfl⟩) fun q _ u hq => ih hq

/-- **A place that has a type has one with fewer shadows.** -/
theorem typeOf (h : Γ.Clearer Δ) (ht : typeOf Δ p = .ok T) :
    ∃ T', typeOf Γ p = .ok T' ∧ T'.Clearer T := by
  obtain ⟨T', ht', hT⟩ := h.typeUpTo ht
  exact ⟨T', typeOf_of_typeUpTo ht', hT⟩

/-- A whole type is found in both environments. -/
theorem typeOf_eq (h : Γ.Clearer Δ) (ht : Ownership.typeOf Δ p = .ok T) (hd : T.defined = true) :
    Ownership.typeOf Γ p = .ok T := by
  obtain ⟨T', ht', hT⟩ := h.typeOf ht
  rwa [← hT.eq_of_defined hd]

/-- **What is compatible stays so.** Equal types may differ without some of their shadows, so that
is said of compatible referents only. -/
theorem compatible (h₁ : Γ₁.Clearer Δ₁) (h₂ : Γ₂.Clearer Δ₂) (ha : a'.Clearer a)
    (hb : b'.Clearer b) (h : compatible .covariant Δ₁ a b Δ₂ = .ok true) :
    Ownership.compatible .covariant Γ₁ a' b' Γ₂ = .ok true := by
  rw [Ownership.compatible] at h
  generalize Δ₁.targets.length * Δ₂.targets.length + 2 = n at h
  refine compatible_of_compatibleUpTo (n := n) ?_
  induction n generalizing a b a' b' with
  | zero => cases h
  | succ n ih =>
    rw [compatibleUpTo_succ] at h ⊢
    refine Ty.Clearer.alike h ha hb fun m ps qs hr => ?_
    obtain ⟨p, q, r₁, r₂, hp, hq, hr₁, hr₂, hr⟩ := hr
    rw [if_neg (by simp)] at hr
    obtain ⟨r₁', hr₁', hc₁⟩ := h₁.typeOf hr₁
    obtain ⟨r₂', hr₂', hc₂⟩ := h₂.typeOf hr₂
    exact ⟨p, q, r₁', r₂', hp, hq, hr₁', hr₂', by rw [if_neg (by simp)]; exact ih hc₁ hc₂ hr⟩

/-! ### Writes -/

theorem admits (h : Γ.Clearer Δ) (ha : Admits .covariant Δ p ty s) :
    ∃ t, Admits .covariant Γ p ty ⟨t, s.lifetime⟩ ∧ t.Clearer s.ty := by
  obtain ⟨t, hs, hc⟩ := h.slot ha.slot
  obtain ⟨current, ht, hcomp⟩ := ha.compatible
  obtain ⟨current', ht', hcur⟩ := h.typeOf ht
  have hcomp' := h.compatible h hcur (.refl ty) hcomp
  exact ⟨t, ⟨hs, (h.within ..).trans ha.within, current', ht', hcomp'⟩, hc⟩

theorem writeUpTo (h : Γ.Clearer Δ)
    (hw : writeUpTo .covariant ty n strong Δ p = .ok Δ') :
    ∃ Γ', writeUpTo .covariant ty n strong Γ p = .ok Γ' ∧ Γ'.Clearer Δ' := by
  induction n generalizing strong Γ Δ p Δ' with
  | zero => cases hw
  | succ n ih =>
    obtain ⟨s, ha, hcase⟩ := writeUpTo_ok hw
    obtain ⟨t, ha', hc⟩ := h.admits ha
    rcases hcase with ⟨old, new, hf, rfl, hnew⟩ | ⟨ps, rest, Δ₁, hf, hfold, rfl⟩
    · obtain ⟨old', hf', hold⟩ := hc.reached hf
      obtain ⟨new', hnew', hn⟩ : ∃ new', ((strong = true ∧ new' = ty) ∨
          (strong = false ∧ old'.union ty = some new')) ∧ new'.Clearer new := by
        rcases hnew with ⟨hs, rfl⟩ | ⟨hs, hu⟩
        · exact ⟨new, .inl ⟨hs, rfl⟩, .refl new⟩
        · obtain ⟨new', hu', hn⟩ := Ty.Clearer.union hu hold (.refl ty)
          exact ⟨new', .inr ⟨hs, hu'⟩, hn⟩
      exact ⟨_, writeUpTo_of_reached ha' hf' hnew', h.insert (hc.replaceAt hf hn) _ _⟩
    · obtain ⟨_, hf', rfl⟩ := hc.crossed hf
      obtain ⟨Γ₁, hΓ₁, hc₁⟩ := foldlM_follows (R := Env.Clearer)
        (g := Ownership.writeUpTo .covariant ty n false) (fun _ _ _ _ _ h₂ hw => ih h₂ hw) h hfold
      exact ⟨_, writeUpTo_of_crossed ha' hf' hΓ₁, hc₁.insert hc _ _⟩

/-- **A write of something whole that succeeds does so where less has been moved out.** -/
theorem write (h : Γ.Clearer Δ) (hd : ty.defined = true)
    (hw : write .covariant Δ p ty strong = .ok Δ') :
    ∃ Γ', Ownership.write .covariant Γ p ty strong = .ok Γ' ∧ Γ'.Clearer Δ' := by
  obtain ⟨Γ', hw', hc⟩ := h.writeUpTo hw
  exact ⟨Γ', write_of_writeUpTo hd hw', hc⟩

/-! ### Joins -/

/-- **Environments that have a join have one where less has been moved out of both.** -/
theorem join (h₁ : Γ₁.Clearer Δ₁) (h₂ : Γ₂.Clearer Δ₂) (hj : join .covariant Δ₁ Δ₂ = .ok J) :
    ∃ J', Ownership.join .covariant Γ₁ Γ₂ = .ok J' ∧ J'.Clearer J := by
  obtain ⟨hnone, hsome⟩ := join_ok hj
  have joined : ∀ x t, Γ₁.get? x = some t → ∃ (left : Slot) (right T T' U : Ty),
      Δ₁.get? x = some left ∧ Γ₂.get? x = some ⟨U, t.lifetime⟩ ∧ J.get? x = some ⟨T, t.lifetime⟩ ∧
      Ownership.compatible .covariant Δ₁ left.ty right Δ₂ = .ok true ∧ t.ty.Clearer left.ty ∧
      U.Clearer right ∧ t.ty.union U = some T' ∧ T'.Clearer T := by
    intro x t ht
    obtain ⟨tl, hl, hcl⟩ := h₁.slot' ht
    obtain ⟨right, T, hr, hlife, hcomp, hu, hJ⟩ := hsome x _ hl
    obtain ⟨U, hU, hcr⟩ := h₂.slot hr
    obtain ⟨T', hu', hT⟩ := Ty.Clearer.union hu hcl hcr
    exact ⟨_, right.ty, T, T', U, hl, by rw [hU, ← hlife], hJ, hcomp, hcl, hcr, hu', hT⟩
  obtain ⟨J', hJ'⟩ : ∃ J', Ownership.join .covariant Γ₁ Γ₂ = .ok J' := by
    refine exists_join (fun x => ?_) fun x left right hl hr => ?_
    · rw [h₁.get?_eq_none, h₂.get?_eq_none]
      exact unbound_iff_of_join hj
    · obtain ⟨left', right', T, T', U, -, hU, -, hcomp, hcl, hcr, hu, -⟩ := joined x left hl
      cases hr.symm.trans hU
      exact ⟨rfl, h₁.compatible h₂ hcl hcr hcomp, T', hu⟩
  refine ⟨J', hJ', fun x => ?_⟩
  obtain ⟨hnone', hsome'⟩ := join_ok hJ'
  cases hl : Γ₁.get? x with
  | none =>
    rw [(hnone' x hl).1, (hnone x (h₁.get?_eq_none.1 hl)).1]
    exact .none
  | some left =>
    obtain ⟨left', right', T, T', U, -, hU, hJ, -, -, -, hu, hT⟩ := joined x left hl
    obtain ⟨right, t, hr, -, -, ht, hJt⟩ := hsome' x left hl
    cases hr.symm.trans hU
    cases hu.symm.trans ht
    rw [hJt, hJ]
    exact .some ⟨hT, rfl⟩

end Clearer

end Env

end Ownership
