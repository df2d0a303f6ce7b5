import Mathlib.Data.Finset.Card
import Mathlib.Data.Finset.Prod
import Mathlib.Order.Monotone.Basic
import Ownership.Proofs.Checking.Writes

/-!
# Comparisons within their bound

After the first pair of borrows a comparison goes from one pair of targets of the two environments
to another. As long as a higher bound makes another pair of them compatible it is at most the number
of pairs, so a higher one than that makes no difference.

* `compatible_of_compatibleUpTo`: **types that are compatible are so within the bound.**
-/

namespace Ownership

variable {variance : Variance} {Γ₁ Γ₂ : Env} {a b r : Ty} {n k : Nat} {m : Bool} {ps : PlaceSet}
variable {p q : Place}

/-! ### Pairs of targets -/

section

variable (variance Γ₁ Γ₂)

/-- The two places have compatible types, by fewer than `n` more pairs in a row. -/
def PairUpTo (n : Nat) (d : Place × Place) : Prop :=
  ∃ r₁ r₂, typeOf Γ₁ d.1 = .ok r₁ ∧ typeOf Γ₂ d.2 = .ok r₂ ∧
    compatibleUpTo variance Γ₁ Γ₂ n r₁ r₂ = .ok true

open Classical in
/-- The targets in the two environments that are compatible in pairs. -/
noncomputable def pairs (n : Nat) : Finset (Place × Place) :=
  (Γ₁.targets.toFinset ×ˢ Γ₂.targets.toFinset).filter (PairUpTo variance Γ₁ Γ₂ n)

end

theorem mem_pairs : (p, q) ∈ pairs variance Γ₁ Γ₂ n ↔
    p ∈ Γ₁.targets ∧ q ∈ Γ₂.targets ∧ PairUpTo variance Γ₁ Γ₂ n (p, q) := by
  classical
  simp [pairs, and_assoc]

theorem pairs_mono (hn : n ≤ k) : pairs variance Γ₁ Γ₂ n ⊆ pairs variance Γ₁ Γ₂ k := by
  rintro ⟨p, q⟩ h
  obtain ⟨hp, hq, r₁, r₂, hr₁, hr₂, h⟩ := mem_pairs.1 h
  exact mem_pairs.2 ⟨hp, hq, r₁, r₂, hr₁, hr₂, compatibleUpTo_mono h hn⟩

theorem card_pairs_le (n : Nat) :
    (pairs variance Γ₁ Γ₂ n).card ≤ Γ₁.targets.length * Γ₂.targets.length := by
  classical
  calc (pairs variance Γ₁ Γ₂ n).card
      ≤ (Γ₁.targets.toFinset ×ˢ Γ₂.targets.toFinset).card := Finset.card_filter_le _ _
    _ = Γ₁.targets.toFinset.card * Γ₂.targets.toFinset.card := Finset.card_product _ _
    _ ≤ Γ₁.targets.length * Γ₂.targets.length :=
        Nat.mul_le_mul (List.toFinset_card_le _) (List.toFinset_card_le _)

/-- What is found at a place refers to targets only. -/
theorem first_mem_targets {Γ : Env} (h : typeOf Γ p = .ok r) (hb : (m, ps) ∈ r.borrows)
    (hq : ps.first? = some q) : q ∈ Γ.targets := by
  have hlends : r.Lends m q := ⟨_, hb, rfl, List.mem_of_mem_head? hq⟩
  obtain ⟨x, s, -, hs, ht⟩ := Env.lends_of_typeOf h hlends
  exact List.mem_flatMap.2 ⟨s, NameMap.mem_values hs, ht.borrowed⟩

/-- Where no more pairs of targets are compatible, no more types of places are. -/
theorem compatibleUpTo_of_pairs (hpairs : pairs variance Γ₁ Γ₂ n ⊆ pairs variance Γ₁ Γ₂ k)
    {r₁ r₂ : Ty} (hr₁ : typeOf Γ₁ p = .ok r₁) (hr₂ : typeOf Γ₂ q = .ok r₂)
    (h : compatibleUpTo variance Γ₁ Γ₂ (n + 1) r₁ r₂ = .ok true) :
    compatibleUpTo variance Γ₁ Γ₂ (k + 1) r₁ r₂ = .ok true := by
  rw [compatibleUpTo_succ] at h ⊢
  refine h.mono fun m ps qs hps hqs hr => hr.mono fun p' q' u₁ u₂ hp' hq' hu₁ hu₂ hu => ?_
  have hmem := hpairs (mem_pairs.2 ⟨first_mem_targets hr₁ hps hp', first_mem_targets hr₂ hqs hq',
    u₁, u₂, hu₁, hu₂, hu⟩)
  obtain ⟨-, -, v₁, v₂, hv₁, hv₂, hv⟩ := mem_pairs.1 hmem
  cases hu₁.symm.trans hv₁
  cases hu₂.symm.trans hv₂
  exact hv

/-- **More pairs in a row than there are make no other pair compatible.** -/
theorem pairs_subset (hn : Γ₁.targets.length * Γ₂.targets.length ≤ n) :
    pairs variance Γ₁ Γ₂ n ⊆
      pairs variance Γ₁ Γ₂ (Γ₁.targets.length * Γ₂.targets.length) := by
  have stays : ∀ k, (pairs variance Γ₁ Γ₂ k).card = (pairs variance Γ₁ Γ₂ (k + 1)).card →
      (pairs variance Γ₁ Γ₂ (k + 1)).card = (pairs variance Γ₁ Γ₂ (k + 2)).card := by
    intro k hk
    have hsub : pairs variance Γ₁ Γ₂ (k + 1) ⊆ pairs variance Γ₁ Γ₂ k :=
      (Finset.eq_of_subset_of_card_le (pairs_mono (Nat.le_succ k)) (Nat.le_of_eq hk.symm)).ge
    refine congrArg Finset.card (Finset.Subset.antisymm (pairs_mono (Nat.le_succ _)) ?_)
    rintro ⟨p, q⟩ h
    obtain ⟨hp, hq, r₁, r₂, hr₁, hr₂, h⟩ := mem_pairs.1 h
    exact mem_pairs.2 ⟨hp, hq, r₁, r₂, hr₁, hr₂, compatibleUpTo_of_pairs hsub hr₁ hr₂ h⟩
  have hcard := Nat.stabilises_of_monotone
    (fun _ _ hk => Finset.card_le_card (pairs_mono hk)) card_pairs_le stays hn
  exact (Finset.eq_of_subset_of_card_le (pairs_mono hn) (Nat.le_of_eq hcard)).ge

/-- **Types that are compatible are so within the bound.** -/
theorem compatible_of_compatibleUpTo (h : compatibleUpTo variance Γ₁ Γ₂ n a b = .ok true) :
    compatible variance Γ₁ a b Γ₂ = .ok true := by
  obtain ⟨k, hk⟩ : ∃ k, n ≤ Γ₁.targets.length * Γ₂.targets.length + k := ⟨n, by omega⟩
  have h := compatibleUpTo_mono h (Nat.le_add_right_of_le hk : n ≤ _ + 2)
  rw [compatible]
  -- the first pair of borrows need not be of targets, but what they refer to is
  rw [compatibleUpTo_succ] at h ⊢
  refine h.mono fun m ps qs _ _ hr => hr.mono fun p q r₁ r₂ _ _ hr₁ hr₂ hr => ?_
  exact compatibleUpTo_of_pairs (pairs_subset (Nat.le_add_right ..)) hr₁ hr₂ hr

/-- The bound of `compatible` does not matter. -/
theorem compatible_eq_true : compatible variance Γ₁ a b Γ₂ = .ok true ↔
    ∃ n, compatibleUpTo variance Γ₁ Γ₂ n a b = .ok true :=
  ⟨fun h => ⟨_, h⟩, fun ⟨_, h⟩ => compatible_of_compatibleUpTo h⟩

end Ownership
