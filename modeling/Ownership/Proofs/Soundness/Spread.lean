import Ownership.Checker.Write
import Ownership.Proofs.Environments
import Ownership.Proofs.Soundness.Refines

/-!
# Writing behind borrows

A write through a borrow may hit any of its targets, so each of them gets a weaker
type. `writeUpTo` then puts the slot of the borrowing variable back, and what has been
written to that very variable is lost. `spread` is the same write without that. Both agree
unless a borrow leads back to the variable that holds it, and both only weaken an environment
behind a borrow (`spreadUpTo_weaker`).
-/

namespace Ownership

variable {variance : Variance} {Γ Γ' Γ₁ : Env} {p : Place} {ty : Ty} {s : Slot} {x : String}
variable {n : Nat} {whole : Bool}

/-- Writes through fewer than `n` mutable borrows in a row. All that has been written is kept if
`whole` is set. -/
def spreadUpTo (variance : Variance) (ty : Ty) (whole : Bool) :
    Nat → Bool → Env → Place → Except Violation Env
  | 0, _, _, _ => .error .endless
  | n + 1, strong, env, p => do
    let slot ← env.declared p
    if !env.within ty slot.lifetime then throw (.notWithin ty)
    let current ← typeOf env p
    if !(← compatible variance env current ty env) then throw (.incompatible current ty)
    match slot.ty.follow p.path with
    | .reached old =>
      if strong then return env.insert p.name ⟨slot.ty.replaceAt p.path ty, slot.lifetime⟩
      match old.union ty with
      | some new => return env.insert p.name ⟨slot.ty.replaceAt p.path new, slot.lifetime⟩
      | none => throw (.incompatible old ty)
    | .crossed false _ _ => throw (.notMutable p)
    | .crossed true targets rest =>
      let env ← (targets.toList.map (·.extend rest)).foldlM
        (spreadUpTo variance ty whole n false) env
      return if whole then env else env.insert p.name slot
    | .shadowed => throw (.notWritable p)
    | .notReference | .misfit => throw (.invalidPath p)

/-- The environment after a value of type `ty` has been written to `p`, with all that has been
written. -/
def spread (variance : Variance) (env : Env) (p : Place) (ty : Ty) (strong : Bool) :
    Except Violation Env :=
  let weight := env.weight + ty.weight
  let targets := env.targets.length + ty.borrowed.length
  spreadUpTo variance ty true (crossings weight targets p) strong env p

theorem spreadUpTo_false (strong : Bool) :
    spreadUpTo variance ty false n strong = writeUpTo variance ty n strong := by
  induction n generalizing strong with
  | zero => rfl
  | succ n ih =>
    funext env p
    rw [spreadUpTo, writeUpTo, ih]
    rfl

/-- What a write comes to: a part of a variable, or a unique borrow with targets to go on from. -/
theorem spreadUpTo_ok {strong : Bool}
    (h : spreadUpTo variance ty whole (n + 1) strong Γ p = .ok Γ') :
    ∃ s, Γ.get? p.name = some s ∧ Γ.within ty s.lifetime = true ∧
      ((∃ old new, s.ty.follow p.path = .reached old ∧
          Γ' = Γ.insert p.name ⟨s.ty.replaceAt p.path new, s.lifetime⟩ ∧
          ((strong = true ∧ new = ty) ∨ (strong = false ∧ old.union ty = some new))) ∨
        ∃ targets rest Γ₁, s.ty.follow p.path = .crossed true targets rest ∧
          (targets.toList.map (·.extend rest)).foldlM (spreadUpTo variance ty whole n false) Γ =
            .ok Γ₁ ∧ Γ' = if whole then Γ₁ else Γ₁.insert p.name s) := by
  simp only [spreadUpTo, Traced.bind_eq_ok] at h
  obtain ⟨s, hs, h⟩ := h
  rw [Env.declared] at hs
  cases hg : Γ.get? p.name with
  | none =>
    rw [hg] at hs
    cases hs
  | some s' =>
    rw [hg] at hs
    cases hs
    refine ⟨s, rfl, ?_⟩
    -- the slot outlives what is written to it, and the types fit
    cases hw : Γ.within ty s.lifetime with
    | false =>
      simp only [hw] at h
      cases h
    | true =>
      simp only [hw, Bool.not_true, Bool.false_eq_true, if_false, Traced.bind_eq_ok] at h
      obtain ⟨current, -, b, -, h⟩ := h
      cases b with
      | false => cases h
      | true =>
        simp only [Bool.not_true, Bool.false_eq_true, if_false] at h
        refine ⟨rfl, ?_⟩
        cases hf : s.ty.follow p.path with
        | reached old =>
          simp only [hf] at h
          cases strong with
          | true =>
            simp only [if_true] at h
            cases h
            exact .inl ⟨old, ty, rfl, rfl, .inl ⟨rfl, rfl⟩⟩
          | false =>
            simp only [Bool.false_eq_true, if_false] at h
            cases hu : old.union ty with
            | none =>
              rw [hu] at h
              cases h
            | some new =>
              rw [hu] at h
              cases h
              exact .inl ⟨old, new, rfl, rfl, .inr ⟨rfl, hu⟩⟩
        | crossed m targets rest =>
          cases m with
          | false =>
            simp only [hf] at h
            cases h
          | true =>
            simp only [hf, Traced.bind_eq_ok] at h
            obtain ⟨Γ₁, h₁, e⟩ := h
            cases e
            exact .inr ⟨targets, rest, Γ₁, rfl, h₁, rfl⟩
        | shadowed =>
          simp only [hf] at h
          cases h
        | notReference =>
          simp only [hf] at h
          cases h
        | misfit =>
          simp only [hf] at h
          cases h

/-! ### Weaker environments -/

/-- **The second environment is weaker**: it binds the same variables, and what refines the first
one refines it. What is whole stays whole. -/
structure Weaker (Γ Γ' : Env) : Prop where
  none : ∀ x, Γ.get? x = none → Γ'.get? x = none
  some : ∀ x s, Γ.get? x = some s → ∃ s', Γ'.get? x = some s' ∧ s'.lifetime = s.lifetime ∧
    Refines.Covers s'.ty s.ty ∧ (s.ty.defined = true → s'.ty.defined = true)

namespace Weaker

theorem refl (Γ : Env) : Weaker Γ Γ :=
  ⟨fun _ h => h, fun _ s h => ⟨s, h, rfl, fun _ _ h => h, fun h => h⟩⟩

theorem trans (h : Weaker Γ Γ₁) (h' : Weaker Γ₁ Γ') : Weaker Γ Γ' where
  none := fun x hx => h'.none x (h.none x hx)
  some := by
    intro x s hs
    obtain ⟨s₁, h₁, e₁, c₁, d₁⟩ := h.some x s hs
    obtain ⟨s₂, h₂, e₂, c₂, d₂⟩ := h'.some x s₁ h₁
    exact ⟨s₂, h₂, e₂.trans e₁, fun k c hr => c₂ k c (c₁ k c hr), fun h => d₂ (d₁ h)⟩

/-- The slot of a variable is replaced by one that covers what it was at first. -/
theorem insert (h : Weaker Γ Γ') (hs : Γ.get? x = .some s) {T : Ty} (hc : Refines.Covers T s.ty)
    (hd : s.ty.defined = true → T.defined = true) : Weaker Γ (Γ'.insert x ⟨T, s.lifetime⟩) where
  none := by
    intro y hy
    rw [NameMap.get?_insert, if_neg, h.none y hy]
    rintro rfl
    rw [hs] at hy
    cases hy
  some := by
    intro y s' hs'
    rw [NameMap.get?_insert]
    split
    · rename_i e
      subst e
      rw [hs] at hs'
      cases hs'
      exact ⟨_, rfl, rfl, hc, hd⟩
    · exact h.some y s' hs'

theorem foldlM {f : Env → Place → Except Violation Env}
    (hf : ∀ Γ p Γ', f Γ p = .ok Γ' → Weaker Γ Γ') {ps : List Place}
    (h : ps.foldlM f Γ = .ok Γ') : Weaker Γ Γ' := by
  induction ps generalizing Γ with
  | nil =>
    cases h
    exact refl _
  | cons p ps ih =>
    rw [List.foldlM_cons, Traced.bind_eq_ok] at h
    obtain ⟨Γ₁, h₁, h⟩ := h
    exact (hf Γ p Γ₁ h₁).trans (ih h)

end Weaker

/-- **A write behind a borrow only weakens the environment.** -/
theorem spreadUpTo_weaker (hd : ty.defined = true)
    (h : spreadUpTo variance ty whole n false Γ p = .ok Γ') : Weaker Γ Γ' := by
  induction n generalizing Γ p Γ' with
  | zero => cases h
  | succ n ih =>
    obtain ⟨s, hs, -, ⟨old, new, hf, rfl, ⟨⟨⟩, -⟩ | ⟨-, hu⟩⟩ | ⟨targets, rest, Γ₁, hf, h₁, rfl⟩⟩ :=
      spreadUpTo_ok h
    · exact (Weaker.refl Γ).insert hs (Refines.covers_replaceAt hf (Refines.covers_union hu).1)
        fun h => Ty.defined_replaceAt hf h fun h => Ty.defined_union hu h hd
    · -- each of the targets in turn, and the slot that is put back is as it was
      have hw : Weaker Γ Γ₁ := .foldlM (fun Γ p Γ' h => ih h) h₁
      cases whole with
      | true => exact hw
      | false => exact hw.insert hs (fun _ _ h => h) fun h => h

end Ownership
