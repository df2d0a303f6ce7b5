import Ownership.Proofs.Typing

/-!
# Comparing types

Types are alike if they have the same parts, shadows apart, and their borrows are related pair by
pair (`Ty.Alike`). So compatible types are alike, and their borrows are so by the types of their
first targets (`Refers`).

* `Ty.alike_eq_true`, `compatibleUpTo_succ`: **what it means to be compatible.**
* `compatibleUpTo_mono`: types are compatible under any higher bound.
-/

namespace Ownership

variable {R R' : Bool → PlaceSet → PlaceSet → Prop}
variable {refer : Bool → PlaceSet → PlaceSet → Except Violation Bool}
variable {variance : Variance} {Γ₁ Γ₂ : Env} {a b r : Ty} {as bs : List Ty} {n k : Nat}
variable {m : Bool} {ps qs : PlaceSet} {p q : Place}

namespace Ty

/-- **The types are alike**, shadows apart, where `R` relates their borrows. -/
inductive Alike (R : Bool → PlaceSet → PlaceSet → Prop) : Ty → Ty → Prop where
  | unit : Alike R .unit .unit
  | int : Alike R .int .int
  | box {a b : Ty} : Alike R a b → Alike R (.box a) (.box b)
  | borrow {m : Bool} {ps qs : PlaceSet} : R m ps qs → Alike R (.borrow m ps) (.borrow m qs)
  | compound {as bs : List Ty} : as.length = bs.length →
      (∀ (i : Nat) a b, as[i]? = some a → bs[i]? = some b → Alike R a b) →
      Alike R (.compound as) (.compound bs)
  | left {a b : Ty} : Alike R a b → Alike R (.shadow a) b
  | right {a b : Ty} : Alike R a b → Alike R a (.shadow b)

namespace Alike

theorem of_unshadowed (h : Alike R a b.unshadowed) : Alike R a b := by
  induction b with
  | shadow b ih => exact .right (ih h)
  | _ => exact h

/-- Only borrows of the two types are compared. -/
theorem mono (hR : ∀ m ps qs, (m, ps) ∈ a.borrows → (m, qs) ∈ b.borrows → R m ps qs → R' m ps qs)
    (h : Alike R a b) : Alike R' a b := by
  induction h with
  | unit => exact .unit
  | int => exact .int
  | box _ ih => exact .box (ih hR)
  | borrow h => exact .borrow (hR _ _ _ (by simp [borrows]) (by simp [borrows]) h)
  | left _ ih => exact .left (ih hR)
  | right _ ih => exact .right (ih hR)
  | compound hl _ ih =>
    refine .compound hl fun i a b ha hb => ih i a b ha hb fun m ps qs hp hq => hR m ps qs ?_ ?_
    · rw [borrows, allBorrows_eq]
      exact List.mem_flatMap.2 ⟨a, List.mem_of_getElem? ha, hp⟩
    · rw [borrows, allBorrows_eq]
      exact List.mem_flatMap.2 ⟨b, List.mem_of_getElem? hb, hq⟩

end Alike

/-- Components are compared in pairs. -/
theorem alikeAll_eq_true (hl : as.length = bs.length) : alikeAll refer as bs = .ok true ↔
    ∀ (i : Nat) a b, as[i]? = some a → bs[i]? = some b → a.alike refer b = .ok true := by
  induction as generalizing bs with
  | nil => simp [alikeAll]
  | cons a as ih =>
    cases bs with
    | nil => cases hl
    | cons b bs =>
      have hrest := ih (Nat.succ.inj hl)
      rw [alikeAll, Traced.bind_eq_ok]
      constructor
      · rintro ⟨k, hk, h⟩ i a' b' ha hb
        cases k with
        | false => cases h
        | true =>
          cases i with
          | zero =>
            cases ha
            cases hb
            exact hk
          | succ i => exact hrest.1 h i a' b' ha hb
      · intro h
        exact ⟨true, h 0 a b rfl rfl, hrest.2 fun i => h (i + 1)⟩

theorem alike_shadow (a b : Ty) : a.alike refer (.shadow b) = a.alike refer b := by
  induction a with
  | shadow a ih => exact ih
  | _ => simp only [alike, unshadowed]

/-- **What the comparison of two types says.** -/
theorem alike_eq_true : a.alike refer b = .ok true ↔
    a.Alike (fun m ps qs => refer m ps qs = .ok true) b := by
  constructor
  · intro h
    induction a generalizing b with
    | shadow a ih => exact .left (ih h)
    | unit =>
      rw [alike] at h
      refine .of_unshadowed ?_
      split at h
      · rename_i e
        rw [e]
        exact .unit
      · cases h
    | int =>
      rw [alike] at h
      refine .of_unshadowed ?_
      split at h
      · rename_i e
        rw [e]
        exact .int
      · cases h
    | box a ih =>
      rw [alike] at h
      refine .of_unshadowed ?_
      split at h
      · rename_i e
        rw [e]
        exact .box (ih h)
      · cases h
    | borrow m ps =>
      rw [alike] at h
      refine .of_unshadowed ?_
      split at h
      · rename_i n qs e
        split at h
        · rename_i hm
          subst hm
          rw [e]
          exact .borrow h
        · cases h
      · cases h
    | compound as ih =>
      rw [alike] at h
      refine .of_unshadowed ?_
      split at h
      · rename_i bs e
        split at h
        · rename_i hl
          rw [e]
          refine .compound hl fun i a b ha hb => ?_
          exact ih a (List.mem_of_getElem? ha) ((alikeAll_eq_true hl).1 h i a b ha hb)
        · cases h
      · cases h
  · intro h
    induction h with
    | unit => rfl
    | int => rfl
    | box _ ih => simpa [alike, unshadowed] using ih
    | borrow h => simpa [alike, unshadowed] using h
    | compound hl _ ih => simpa [alike, unshadowed, hl] using (alikeAll_eq_true hl).2 ih
    | left _ ih => exact ih
    | right _ ih => rwa [alike_shadow]

end Ty

/-! ### Compatible types -/

/-- **Both borrows refer to compatible types**, as far as the first target of each tells. -/
def Refers (variance : Variance) (Γ₁ Γ₂ : Env) (n : Nat) (m : Bool) (ps qs : PlaceSet) : Prop :=
  ∃ p q r₁ r₂, ps.first? = some p ∧ qs.first? = some q ∧ typeOf Γ₁ p = .ok r₁ ∧
    typeOf Γ₂ q = .ok r₂ ∧ if m = true ∧ variance = .invariant then r₁ = r₂ else
      compatibleUpTo variance Γ₁ Γ₂ n r₁ r₂ = .ok true

theorem typeOf?_eq_some {Γ : Env} : typeOf? Γ p = .ok (some r) ↔ typeOf Γ p = .ok r := by
  rw [typeOf?]
  cases typeOf Γ p with
  | ok t => simp
  | error e => cases e <;> simp

/-- **What it means to be compatible.** -/
theorem compatibleUpTo_succ : compatibleUpTo variance Γ₁ Γ₂ (n + 1) a b = .ok true ↔
    a.Alike (Refers variance Γ₁ Γ₂ n) b := by
  rw [compatibleUpTo, Ty.alike_eq_true]
  refine iff_of_eq (congrArg (Ty.Alike · a b) (funext fun m => funext fun ps => funext fun qs =>
    propext ⟨fun h => ?_, ?_⟩))
  · cases hp : ps.first? with
    | none => simp [hp] at h
    | some p =>
      cases hq : qs.first? with
      | none => simp [hp, hq] at h
      | some q =>
        simp only [hp, hq, Traced.bind_eq_ok] at h
        obtain ⟨r₁, hr₁, r₂, hr₂, h⟩ := h
        cases r₁ with
        | none => cases h
        | some r₁ =>
          cases r₂ with
          | none => cases h
          | some r₂ =>
            refine ⟨p, q, r₁, r₂, hp, hq, typeOf?_eq_some.1 hr₁, typeOf?_eq_some.1 hr₂, ?_⟩
            simp only at h
            split at h
            · rename_i hinv
              rw [if_pos hinv]
              simpa using h
            · rename_i hinv
              rwa [if_neg hinv]
  · rintro ⟨p, q, r₁, r₂, hp, hq, hr₁, hr₂, h⟩
    simp only [hp, hq, typeOf?_eq_some.2 hr₁, typeOf?_eq_some.2 hr₂, Traced.ok_bind]
    split
    · rename_i hinv
      rw [if_pos hinv] at h
      simp [h]
    · rename_i hinv
      rwa [if_neg hinv] at h

theorem Refers.mono (hn : ∀ p q r₁ r₂, ps.first? = some p → qs.first? = some q →
      typeOf Γ₁ p = .ok r₁ → typeOf Γ₂ q = .ok r₂ →
      compatibleUpTo variance Γ₁ Γ₂ n r₁ r₂ = .ok true →
      compatibleUpTo variance Γ₁ Γ₂ k r₁ r₂ = .ok true)
    (h : Refers variance Γ₁ Γ₂ n m ps qs) : Refers variance Γ₁ Γ₂ k m ps qs := by
  obtain ⟨p, q, r₁, r₂, hp, hq, hr₁, hr₂, h⟩ := h
  refine ⟨p, q, r₁, r₂, hp, hq, hr₁, hr₂, ?_⟩
  split
  · rename_i hinv
    rwa [if_pos hinv] at h
  · rename_i hinv
    rw [if_neg hinv] at h
    exact hn p q r₁ r₂ hp hq hr₁ hr₂ h

/-- Types are compatible under any higher bound. -/
theorem compatibleUpTo_mono (h : compatibleUpTo variance Γ₁ Γ₂ n a b = .ok true) (hn : n ≤ k) :
    compatibleUpTo variance Γ₁ Γ₂ k a b = .ok true := by
  induction n generalizing a b k with
  | zero => cases h
  | succ n ih =>
    obtain ⟨k, rfl⟩ : ∃ k', k = k' + 1 := ⟨k - 1, by omega⟩
    rw [compatibleUpTo_succ] at h ⊢
    exact h.mono fun m ps qs _ _ hr => hr.mono fun _ _ _ _ _ _ _ _ h => ih h (by omega)

end Ownership
