import Ownership.Proofs.Checking.Additions
import Ownership.Proofs.Checking.Reserved
import Ownership.Proofs.Checking.Shared
import Ownership.Proofs.Checking.Simulations
import Ownership.Proofs.Checking.Temporaries

/-!
# Operands that are declared in the stead of being parked

In one environment some operands have been parked, in the other one they have been declared under
names of their own (`Env.Lifted`). The temporaries behind them are the first ones in the other
environment. No borrow tells the two apart, as nothing is borrowed from a temporary, and every type
that is in one of them is in the other, so the same places are prohibited.

* `Checker.simulation_lifted`: **every rule does the same in both environments.**
-/

namespace Ownership

variable {c : Checker} {variance : Variance} {Γ Γ₁ Γ₂ Γ' Δ Δ₁ Δ₂ Δ' J K : Env}
variable {N ns ms : List String} {Ts : List Ty} {T T₁ T₂ U U₁ U₂ V : Ty} {l inner : Lifetime}
variable {p : Place} {x x' y y' n : String} {s : Slot} {m : Bool} {i j : Nat} {f : String → String}
variable {t : Term}

/-- The term names the variables `N` only, and no block in it has the lifetime `l` or the root of
it. -/
structure Term.Outside (N : List String) (l : Lifetime) (t : Term) : Prop where
  names : t.names ⊆ N
  own : l ∉ t.lifetimes
  root : l.global ∉ t.lifetimes

theorem Checker.Visits.outside {a b : Site} (h : a.term.Outside N l) (hab : c.Visits a b) :
    b.term.Outside N l where
  names := List.Subset.trans hab.names_subset h.names
  own := fun hm => h.own (hab.lifetimes_subset hm)
  root := fun hm => h.root (hab.lifetimes_subset hm)

namespace Env

/-! ### Names -/

/-- The names `ns` are new to what names the variables `N`, and none of them is a temporary. -/
structure Spare (N ns : List String) : Prop where
  nodup : ns.Nodup
  unparked : Unparked ns
  apart : ∀ n ∈ ns, n ∉ N

theorem Spare.last_notMem (h : Spare N (ns ++ [n])) : n ∉ ns :=
  fun hm => (List.nodup_append.1 h.nodup).2.2 n hm n List.mem_cons_self rfl

theorem Spare.left (h : Spare N (ns ++ ms)) : Spare N ns where
  nodup := h.nodup.of_append_left
  unparked := fun n hn => h.unparked n (List.mem_append_left _ hn)
  apart := fun n hn => h.apart n (List.mem_append_left _ hn)

/-- The first temporaries are other ones than those behind them. -/
theorem temporary_ne_later (hn : ns[i]? = some n) (j : Nat) :
    temporary i ≠ temporary (ns.length + j) := by
  intro e
  have hlt : i < ns.length := (List.getElem?_eq_some_iff.1 hn).1
  have := temporary_injective e
  omega

/-- Where `ns` are declared in the stead of the first temporaries, `y` is bound to what `x` is bound
to elsewhere. -/
inductive StandsFor (ns : List String) : String → String → Prop
  | same {x : String} : x ∉ ns → (∀ i, x ≠ temporary i) → StandsFor ns x x
  | later {j : Nat} : StandsFor ns (temporary (ns.length + j)) (temporary j)

theorem exists_standsFor (hy : y ∉ ns) : ∃ x, StandsFor ns x y := by
  by_cases h : ∃ j, y = temporary j
  · obtain ⟨j, rfl⟩ := h
    exact ⟨_, .later⟩
  · exact ⟨y, .same hy fun i e => h ⟨i, e⟩⟩

namespace StandsFor

theorem notMem (h : StandsFor ns x y) (hs : Spare N ns) : y ∉ ns := by
  cases h with
  | same hx => exact hx
  | later => exact fun hm => hs.unparked _ hm _ rfl

theorem right_unique (h : StandsFor ns x y) (h' : StandsFor ns x y') : y = y' := by
  generalize e : x = z at h'
  cases h with
  | same hx ht =>
    cases h' with
    | same => exact e
    | later => exact absurd e (ht _)
  | later =>
    cases h' with
    | same hx ht => exact absurd e.symm (ht _)
    | later => rw [Nat.add_left_cancel (temporary_injective e)]

theorem left_unique (h : StandsFor ns x y) (h' : StandsFor ns x' y) : x = x' := by
  generalize e : y = z at h'
  cases h with
  | same hx ht =>
    cases h' with
    | same => exact e
    | later => exact absurd e (ht _)
  | later =>
    cases h' with
    | same hx ht => exact absurd e.symm (ht _)
    | later => rw [temporary_injective e]

end StandsFor

/-- The renaming takes each name to the one that stands for it. -/
def Renames (ns : List String) (f : String → String) : Prop := ∀ x y, StandsFor ns x y → f x = y

theorem exists_renames (ns : List String) : ∃ f, Renames ns f := by
  have each : ∀ x, ∃ z, ∀ y, StandsFor ns x y → z = y := by
    intro x
    by_cases h : ∃ z, StandsFor ns x z
    · obtain ⟨z, hz⟩ := h
      exact ⟨z, fun y hy => hz.right_unique hy⟩
    · exact ⟨x, fun y hy => absurd ⟨y, hy⟩ h⟩
  exact Classical.skolem.1 each

/-- Variables of a program are not renamed. -/
theorem Renames.variable (hf : Renames ns f) (hs : Spare N ns) (hN : Unparked N) (hx : x ∈ N) :
    f x = x := hf x x (.same (fun hn => hs.apart x hn hx) (hN x hx))

theorem Renames.place (hf : Renames ns f) (hs : Spare N ns) (hN : Unparked N) (hp : p.name ∈ N) :
    p.rename f = p := by rw [Place.rename, hf.variable hs hN hp]

/-! ### Environments -/

/-- **The operands of the types `Ts` are parked in `Γ`, and declared under `ns` in `Δ`.** What a
program that names the variables `N` does is the same in both. -/
structure Lifted (N ns : List String) (l : Lifetime) (Ts : List Ty) (Γ : Env) (T : Ty) (Δ : Env)
    (U : Ty) : Prop where
  spare : Spare N ns
  unparked : Unparked N
  types : U = T
  reserved : Reserved N Γ T
  bound : Γ.NamedIn N
  slot : ∀ x y, StandsFor ns x y → Δ.get? y = Γ.get? x
  length : Ts.length = ns.length
  held : ∀ i n V, ns[i]? = some n → Ts[i]? = some V →
    Γ.get? (temporary i) = some ⟨V, l.global⟩ ∧ Δ.get? n = some ⟨V, l⟩

namespace Lifted

theorem retype (h : Lifted N ns l Ts Γ T Δ U) (hV : Reserved N Γ V) : Lifted N ns l Ts Γ V Δ V :=
  ⟨h.spare, h.unparked, rfl, hV, h.bound, h.slot, h.length, h.held⟩

/-- An operand has the same type in both environments. -/
theorem exists_held (h : Lifted N ns l Ts Γ T Δ U) (hn : ns[i]? = some n) :
    ∃ V, Ts[i]? = some V ∧ Γ.get? (temporary i) = some ⟨V, l.global⟩ ∧ Δ.get? n = some ⟨V, l⟩ := by
  have hi : i < Ts.length := h.length ▸ (List.getElem?_eq_some_iff.1 hn).1
  exact ⟨Ts[i], List.getElem?_eq_getElem hi, h.held i n _ hn (List.getElem?_eq_getElem hi)⟩

theorem temporary_notMem (h : Lifted N ns l Ts Γ T Δ U) (i : Nat) : temporary i ∉ N :=
  fun hm => h.unparked _ hm i rfl

/-! ### What the environments have in common -/

theorem shares (h : Lifted N ns l Ts Γ T Δ U) : Γ.Shares N Δ where
  same := fun x hx => h.slot x x (.same (fun hn => h.spare.apart x hn hx) (h.unparked x hx))
  named := fun x s hx m p => h.reserved.named x s m p hx

theorem origin (h : Lifted N ns l Ts Γ T Δ U) (hy : Δ.get? y = some s) :
    ∃ x s', Γ.get? x = some s' ∧ s'.ty = s.ty := by
  by_cases hm : y ∈ ns
  · obtain ⟨i, hi⟩ := List.mem_iff_getElem?.1 hm
    obtain ⟨V, -, hΓ, hΔ⟩ := h.exists_held hi
    cases hy.symm.trans hΔ
    exact ⟨_, _, hΓ, rfl⟩
  · obtain ⟨x, hxy⟩ := exists_standsFor hm
    exact ⟨x, s, (h.slot x y hxy).symm.trans hy, rfl⟩

theorem image (h : Lifted N ns l Ts Γ T Δ U) (hx : Γ.get? x = some s) :
    ∃ y s', Δ.get? y = some s' ∧ s'.ty = s.ty := by
  rcases h.bound x s hx with hm | ⟨i, rfl⟩
  · exact ⟨x, s, (h.shares.same x hm).trans hx, rfl⟩
  · rcases Nat.lt_or_ge i ns.length with hi | hi
    · obtain ⟨V, -, hΓ, hΔ⟩ := h.exists_held (List.getElem?_eq_getElem hi)
      cases hx.symm.trans hΓ
      exact ⟨_, _, hΔ, rfl⟩
    · obtain ⟨j, rfl⟩ := Nat.exists_eq_add_of_le hi
      exact ⟨_, s, (h.slot _ _ .later).trans hx, rfl⟩

/-- **The same types are bound**, so the same places are prohibited. -/
theorem any_values (h : Lifted N ns l Ts Γ T Δ U) (g : Ty → Bool) :
    (Δ.values.any fun s => g s.ty) = Γ.values.any fun s => g s.ty := by
  refine Bool.eq_iff_iff.2 ?_
  simp only [List.any_eq_true, NameMap.mem_values_iff]
  constructor
  · rintro ⟨s, ⟨y, hy⟩, hg⟩
    obtain ⟨x, s', hx, e⟩ := h.origin hy
    exact ⟨s', ⟨x, hx⟩, e ▸ hg⟩
  · rintro ⟨s, ⟨x, hx⟩, hg⟩
    obtain ⟨y, s', hy, e⟩ := h.image hx
    exact ⟨s', ⟨y, hy⟩, e ▸ hg⟩

theorem readProhibited (h : Lifted N ns l Ts Γ T Δ U) (p : Place) :
    Δ.readProhibited p = Γ.readProhibited p :=
  h.any_values fun t => t.prohibitsReading p

theorem writeProhibited (h : Lifted N ns l Ts Γ T Δ U) (p : Place) :
    Δ.writeProhibited p = Γ.writeProhibited p :=
  h.any_values fun t => t.prohibitsWriting p

/-- **The next temporaries stand for each other.** -/
theorem freshName (h : Lifted N ns l Ts Γ T Δ U) :
    ∃ j, Γ.freshName = temporary (ns.length + j) ∧ Δ.freshName = temporary j := by
  have contains : ∀ j, Δ.contains (temporary j) = Γ.contains (temporary (ns.length + j)) := by
    intro j
    rw [NameMap.contains, NameMap.contains, h.slot _ _ .later]
  obtain ⟨i, hi, hfree, hbefore⟩ := freshName_first Γ
  have hle : ns.length ≤ i := by
    by_contra hlt
    obtain ⟨V, -, hΓ, -⟩ := h.exists_held (List.getElem?_eq_getElem (not_le.1 hlt))
    rw [NameMap.contains_eq_false_iff, hΓ] at hfree
    cases hfree
  obtain ⟨j, rfl⟩ := Nat.exists_eq_add_of_le hle
  exact ⟨j, hi, freshName_eq ((contains j).trans hfree) fun k hk =>
    (contains k).trans (hbefore _ (Nat.add_lt_add_left hk _))⟩

/-! ### What may happen to both of them -/

/-- **Only variables of the program change**, and these in the same way. -/
theorem update (h : Lifted N ns l Ts Γ T Δ U) (hΓ : Γ.Only N Γ') (hΔ : Δ.Only N Δ')
    (hsame : ∀ x ∈ N, Δ'.get? x = Γ'.get? x) (hV : Reserved N Γ' V) :
    Lifted N ns l Ts Γ' V Δ' V where
  spare := h.spare
  unparked := h.unparked
  types := rfl
  reserved := hV
  bound := by
    intro x s hx
    by_cases hm : x ∈ N
    · exact .inl hm
    · exact h.bound x s (hΓ x hm ▸ hx)
  slot := by
    intro x y hxy
    cases hxy with
    | same hx ht =>
      by_cases hm : x ∈ N
      · exact hsame x hm
      · rw [hΔ x hm, hΓ x hm, h.slot x x (.same hx ht)]
    | later =>
      rw [hΔ _ (h.temporary_notMem _), hΓ _ (h.temporary_notMem _), h.slot _ _ .later]
  length := h.length
  held := by
    intro i n V hn hT
    obtain ⟨hi, hd⟩ := h.held i n V hn hT
    rw [hΓ _ (h.temporary_notMem i), hΔ _ (h.spare.apart n (List.mem_of_getElem? hn))]
    exact ⟨hi, hd⟩

/-- A variable of the program gets the same slot. -/
theorem insert (h : Lifted N ns l Ts Γ T Δ U) (hx : x ∈ N) (s : Slot)
    (hV : Reserved N (Γ.insert x s) V) :
    Lifted N ns l Ts (Γ.insert x s) V (Δ.insert x s) V := by
  refine h.update ((Only.refl Γ).insert hx s) ((Only.refl Δ).insert hx s) (fun y hy => ?_) hV
  rw [NameMap.get?_insert, NameMap.get?_insert, h.shares.same y hy]

/-- Another operand is parked, in both environments. -/
theorem hold (h : Lifted N ns l Ts Γ T Δ U) (k : Lifetime) :
    Lifted N ns l Ts (Γ.insert Γ.freshName ⟨T, k⟩) .unit (Δ.insert Δ.freshName ⟨U, k⟩) .unit := by
  obtain ⟨j, hΓ, hΔ⟩ := h.freshName
  rw [hΓ, hΔ, h.types]
  refine ⟨h.spare, h.unparked, rfl, h.reserved.insert _ k, fun x s hx => ?_, fun x y hxy => ?_,
    h.length, ?_⟩
  · rcases NameMap.get?_insert_some hx with ⟨rfl, -⟩ | ⟨-, hx⟩
    · exact .inr ⟨_, rfl⟩
    · exact h.bound x s hx
  · rw [NameMap.get?_insert, NameMap.get?_insert]
    by_cases hy : y = temporary j
    · subst hy
      rw [if_pos rfl, if_pos (hxy.left_unique .later)]
    · have hx : x ≠ temporary (ns.length + j) := by
        rintro rfl
        exact hy (hxy.right_unique .later)
      rw [if_neg hy, if_neg hx, h.slot x y hxy]
  · intro i n V hn hT
    rw [NameMap.get?_insert, if_neg (temporary_ne_later hn j), NameMap.get?_insert,
      if_neg (h.spare.unparked n (List.mem_of_getElem? hn) j)]
    exact h.held i n V hn hT

/-- The variables of a block are forgotten, but nothing that has been parked or declared before. -/
theorem leave (h : Lifted N ns l Ts Γ T Δ U) (hl : inner ≠ l) (hg : inner ≠ l.global) :
    Lifted N ns l Ts (Γ.dropLifetime inner) T (Δ.dropLifetime inner) U where
  spare := h.spare
  unparked := h.unparked
  types := h.types
  reserved := h.reserved.sub fun x s hx => (get?_dropLifetime.1 hx).1
  bound := fun x s hx => h.bound x s (get?_dropLifetime.1 hx).1
  slot := by
    intro x y hxy
    refine Option.ext fun s => ?_
    rw [get?_dropLifetime, get?_dropLifetime, h.slot x y hxy]
  length := h.length
  held := by
    intro i n V hn hT
    obtain ⟨hi, hd⟩ := h.held i n V hn hT
    exact ⟨get?_dropLifetime.2 ⟨hi, hg.symm⟩, get?_dropLifetime.2 ⟨hd, hl.symm⟩⟩

/-- Temporaries behind the operands are removed, in both environments. -/
theorem eraseAll {M : List String} (h : Lifted N ns l Ts Γ T Δ U) (hf : Renames ns f)
    (hM : ∀ n ∈ M, ∃ j, n = temporary (ns.length + j)) :
    Lifted N ns l Ts (Γ.eraseAll M) T (Δ.eraseAll (M.map f)) U where
  spare := h.spare
  unparked := h.unparked
  types := h.types
  reserved := h.reserved.sub fun x s hx => (NameMap.get?_eraseAll_some.1 hx).2
  bound := h.bound.eraseAll M
  slot := by
    intro x y hxy
    have hmem : y ∈ M.map f ↔ x ∈ M := by
      rw [List.mem_map]
      refine ⟨?_, fun hx => ⟨x, hx, hf x y hxy⟩⟩
      rintro ⟨x', hx', rfl⟩
      obtain ⟨j, rfl⟩ := hM x' hx'
      rw [hf _ _ .later] at hxy
      exact hxy.left_unique .later ▸ hx'
    rw [NameMap.get?_eraseAll, NameMap.get?_eraseAll, h.slot x y hxy]
    exact if_congr hmem rfl rfl
  length := h.length
  held := by
    intro i n V hn hT
    have hi : temporary i ∉ M := by
      intro hm
      obtain ⟨j, e⟩ := hM _ hm
      exact temporary_ne_later hn j e
    have hd : n ∉ M.map f := by
      intro hm
      obtain ⟨x', hx', rfl⟩ := List.mem_map.1 hm
      obtain ⟨j, rfl⟩ := hM x' hx'
      rw [hf _ _ .later] at hn
      exact h.spare.unparked _ (List.mem_of_getElem? hn) j rfl
    rw [NameMap.get?_eraseAll, if_neg hi, NameMap.get?_eraseAll, if_neg hd]
    exact h.held i n V hn hT

/-! ### Joins -/

/-- Types that are bound in the one pair of environments are compared alike in the other one. -/
theorem compatible {x₁ x₂ : String} {s₁ s₂ : Slot} (h₁ : Lifted N ns l Ts Γ₁ T₁ Δ₁ U₁)
    (h₂ : Lifted N ns l Ts Γ₂ T₂ Δ₂ U₂) (hx₁ : Γ₁.get? x₁ = some s₁) (hx₂ : Γ₂.get? x₂ = some s₂)
    (hc : compatible variance Γ₁ s₁.ty s₂.ty Γ₂ = .ok true) :
    Ownership.compatible variance Δ₁ s₁.ty s₂.ty Δ₂ = .ok true :=
  h₁.shares.compatible h₂.shares (fun m p => h₁.reserved.named _ _ m p hx₁)
    (fun m p => h₂.reserved.named _ _ m p hx₂) hc

theorem exists_join (h₁ : Lifted N ns l Ts Γ₁ T₁ Δ₁ U₁) (h₂ : Lifted N ns l Ts Γ₂ T₂ Δ₂ U₂)
    (hj : join variance Γ₁ Γ₂ = .ok J) : ∃ K, join variance Δ₁ Δ₂ = .ok K := by
  obtain ⟨-, hsome⟩ := join_ok hj
  refine Ownership.exists_join (fun y => ?_) fun y left right hl hr => ?_
  · by_cases hy : y ∈ ns
    · obtain ⟨i, hi⟩ := List.mem_iff_getElem?.1 hy
      obtain ⟨V, hT, -, hd₁⟩ := h₁.exists_held hi
      simp [hd₁, (h₂.held i y V hi hT).2]
    · obtain ⟨x, hxy⟩ := exists_standsFor hy
      rw [h₁.slot x y hxy, h₂.slot x y hxy]
      exact unbound_iff_of_join hj
  · by_cases hy : y ∈ ns
    · -- what is parked is after both arms what it is after either of them
      obtain ⟨i, hi⟩ := List.mem_iff_getElem?.1 hy
      obtain ⟨V, hT, hi₁, hd₁⟩ := h₁.exists_held hi
      obtain ⟨hi₂, hd₂⟩ := h₂.held i y V hi hT
      cases hl.symm.trans hd₁
      cases hr.symm.trans hd₂
      obtain ⟨right, t, hr', -, hc, hu, -⟩ := hsome _ _ hi₁
      cases hi₂.symm.trans hr'
      have hc' := h₁.compatible h₂ hi₁ hi₂ hc
      exact ⟨rfl, hc', t, hu⟩
    · obtain ⟨x, hxy⟩ := exists_standsFor hy
      rw [h₁.slot x y hxy] at hl
      rw [h₂.slot x y hxy] at hr
      obtain ⟨right', t, hr', hlife, hc, hu, -⟩ := hsome x left hl
      cases hr.symm.trans hr'
      exact ⟨hlife, h₁.compatible h₂ hl hr hc, t, hu⟩

/-- **The joins are related as the arms are.** -/
theorem join (h₁ : Lifted N ns l Ts Γ₁ T₁ Δ₁ U₁) (h₂ : Lifted N ns l Ts Γ₂ T₂ Δ₂ U₂)
    (hj : join variance Γ₁ Γ₂ = .ok J) (hV : Reserved N J V) :
    ∃ K, Ownership.join variance Δ₁ Δ₂ = .ok K ∧ Lifted N ns l Ts J V K V := by
  obtain ⟨K, hK⟩ := h₁.exists_join h₂ hj
  obtain ⟨hnone, hsome⟩ := join_ok hj
  obtain ⟨hnone', hsome'⟩ := join_ok hK
  refine ⟨K, hK, h₁.spare, h₁.unparked, rfl, hV, fun x s hx => ?_, fun x y hxy => ?_, h₁.length,
    fun i n W hn hT => ?_⟩
  · obtain ⟨left, -, hx₁, -⟩ := joined_of_join hj hx
    exact h₁.bound x left hx₁
  · cases hx₁ : Γ₁.get? x with
    | none =>
      rw [(hnone x hx₁).1, (hnone' y ((h₁.slot x y hxy).trans hx₁)).1]
    | some left =>
      obtain ⟨right, t, hr, -, -, hu, hJ⟩ := hsome x left hx₁
      obtain ⟨right', t', hr', -, -, hu', hK'⟩ := hsome' y left ((h₁.slot x y hxy).trans hx₁)
      rw [h₂.slot x y hxy] at hr'
      cases hr.symm.trans hr'
      cases hu.symm.trans hu'
      rw [hJ, hK']
  · obtain ⟨hi₁, hd₁⟩ := h₁.held i n W hn hT
    obtain ⟨hi₂, hd₂⟩ := h₂.held i n W hn hT
    exact ⟨(hsome _ _ hi₁).of_same hi₂, (hsome' _ _ hd₁).of_same hd₂⟩

end Lifted

end Env

namespace Checker

open Env

/-! ### Rules -/

theorem read_lifted {k : AccessKind} (h : Lifted N ns l Ts Γ .unit Δ .unit) (hp : p.name ∈ N)
    (hr : c.read Γ k p = .ok (Γ', T)) :
    ∃ Δ', c.read Δ k p = .ok (Δ', T) ∧ Lifted N ns l Ts Γ' T Δ' T := by
  have hshares := h.shares
  have hwhole := h.reserved.read h.unparked hp hr
  obtain ⟨s, hslot, ha, ht, hcase⟩ := read_eq_ok.1 hr
  have hslot' := (hshares.same _ hp).trans hslot
  have ha' := (hshares.availability hp false).trans ha
  have ht' := (hshares.typeOf hp).2 ht
  rcases hcase with ⟨hc, hread, rfl⟩ | ⟨hc, hav, hwrite, u, hf, rfl⟩
  · exact ⟨Δ, read_eq_ok.2 ⟨s, hslot', ha', ht',
      .inl ⟨hc, (h.readProhibited p).trans hread, rfl⟩⟩, h.retype hwhole⟩
  · exact ⟨_, read_eq_ok.2 ⟨s, hslot', ha', ht', .inr ⟨hc, (hshares.availability hp true).trans hav,
      (h.writeProhibited p).trans hwrite, u, hf, rfl⟩⟩, h.insert hp _ hwhole⟩

theorem borrow_lifted (h : Lifted N ns l Ts Γ .unit Δ .unit) (hp : p.name ∈ N)
    (hb : borrow Γ m p = .ok T) :
    borrow Δ m p = .ok T ∧ Lifted N ns l Ts Γ T Δ T := by
  have hshares := h.shares
  obtain ⟨⟨s, hslot⟩, ha, hw, hr, rfl⟩ := borrow_eq_ok.1 hb
  refine ⟨borrow_eq_ok.2 ⟨⟨s, (hshares.same _ hp).trans hslot⟩,
    (hshares.availability hp false).trans ha, fun hm => ?_, fun hm => ?_, rfl⟩,
    h.retype (h.reserved.borrowOf hp)⟩
  · exact ⟨(hshares.availability hp true).trans (hw hm).1, (h.writeProhibited p).trans (hw hm).2⟩
  · exact (h.readProhibited p).trans (hr hm)

theorem assign_lifted (h : Lifted N ns l Ts Γ T Δ U) (hp : p.name ∈ N)
    (ha : c.assign Γ p T = .ok Γ') :
    ∃ Δ', c.assign Δ p U = .ok Δ' ∧ Lifted N ns l Ts Γ' .unit Δ' .unit := by
  have hshares := h.shares
  cases h.types
  obtain ⟨hav, hw, hT, hwrite⟩ := assign_eq_ok.1 ha
  obtain ⟨Δ', hwrite', hshares', hΓ, hΔ⟩ :=
    hshares.write hp h.reserved.names h.reserved.whole hwrite
  exact ⟨Δ', assign_eq_ok.2 ⟨(hshares.availability hp true).trans hav,
    (h.writeProhibited p).trans hw, hT, hwrite'⟩,
    h.update hΓ hΔ hshares'.same (h.reserved.write h.unparked hp hwrite)⟩

theorem merge_lifted (h₁ : Lifted N ns l Ts Γ₁ T₁ Δ₁ U₁) (h₂ : Lifted N ns l Ts Γ₂ T₂ Δ₂ U₂)
    (hm : c.merge (Γ₁, T₁) (Γ₂, T₂) = .ok (Γ', T)) :
    ∃ Δ', c.merge (Δ₁, U₁) (Δ₂, U₂) = .ok (Δ', T) ∧ Lifted N ns l Ts Γ' T Δ' T := by
  have hres := h₁.reserved.merge h₂.reserved hm
  cases h₁.types
  cases h₂.types
  obtain ⟨hc, hj, hu⟩ := merge_eq_ok.1 hm
  obtain ⟨Δ', hj', h'⟩ := h₁.join h₂ hj hres
  exact ⟨Δ', merge_eq_ok.2 ⟨h₁.shares.compatible h₂.shares h₁.reserved.names
    h₂.reserved.names hc, hj', hu⟩, h'⟩

theorem comparable_lifted {Us : List Ty} (h : Lifted N ns l Ts Γ (.compound Us) Δ U)
    (hc : c.comparable Γ Us = .ok ()) : c.comparable Δ Us = .ok () := by
  have names : ∀ T ∈ Us, T.NamedIn N := fun T hT m p hp =>
    h.reserved.names m p (Ty.lends_compound.2 ⟨T, hT, hp⟩)
  unfold comparable at hc ⊢
  split at hc
  · rw [expect_eq_ok] at hc ⊢
    exact h.shares.compatible h.shares (names _ (by simp)) (names _ (by simp)) hc
  · rfl

/-- Operands that have been parked behind the first ones are given back. -/
theorem release_lifted {M : List String} (h : Lifted N ns l Ts Γ .unit Δ .unit)
    (hf : Renames ns f) (hM : ∀ n ∈ M, ∃ j, n = temporary (ns.length + j)) :
    Lifted N ns l Ts (Γ.eraseAll M) (.compound (M.filterMap fun n => (Γ.get? n).map (·.ty)))
      (Δ.eraseAll (M.map f)) (.compound ((M.map f).filterMap fun n => (Δ.get? n).map (·.ty))) := by
  have htypes : ((M.map f).filterMap fun n => (Δ.get? n).map (·.ty)) =
      M.filterMap fun n => (Γ.get? n).map (·.ty) := by
    rw [List.filterMap_map]
    refine List.filterMap_congr fun n hn => ?_
    obtain ⟨j, rfl⟩ := hM n hn
    rw [Function.comp_apply, hf _ _ .later, h.slot _ _ .later]
  rw [htypes]
  exact (h.eraseAll hf hM).retype
    (h.reserved.release fun n hn => (hM n hn).imp' (ns.length + ·) fun _ e => e)

/-- **Every rule does the same in both environments**, at terms that name the variables `N` only and
where no block has the lifetime that operands are parked or declared under. -/
theorem simulation_lifted (hf : Renames ns f) :
    Simulation c c f (fun b => b.term.Outside N l) (Lifted N ns l Ts) where
  forms := rfl
  forget h := by
    cases h.types
    exact h.retype h.reserved.unit
  int h := h.retype h.reserved.int
  box h := by
    cases h.types
    exact h.retype h.reserved.box
  contains hok hx h := by
    have hN := hok.names hx
    rw [hf.variable h.spare h.unparked hN, NameMap.contains, NameMap.contains, h.shares.same _ hN]
  fresh h := by
    obtain ⟨j, hΓ, hΔ⟩ := h.freshName
    rw [hΓ, hΔ, hf _ _ .later]
  read hok h hr := by
    have hp := hok.names List.mem_cons_self
    rw [hf.place h.spare h.unparked hp]
    obtain ⟨Δ', hr', h'⟩ := read_lifted h hp hr
    exact ⟨Δ', _, hr', h'⟩
  borrow hok h hb := by
    have hp := hok.names List.mem_cons_self
    rw [hf.place h.spare h.unparked hp]
    exact ⟨_, borrow_lifted h hp hb⟩
  bind hok h := by
    have hx := hok.names List.mem_cons_self
    cases h.types
    rw [hf.variable h.spare h.unparked hx]
    exact h.insert hx _ (h.reserved.insert _ _)
  hold h k := by
    obtain ⟨j, hΓ, hΔ⟩ := h.freshName
    rw [hΓ, hf _ _ .later, ← hΔ, ← hΓ]
    exact h.hold k
  assign hok _ h ha := by
    have hp := hok.names List.mem_cons_self
    rw [hf.place h.spare h.unparked hp]
    exact assign_lifted h hp ha
  within h hw := by
    cases h.types
    exact (h.shares.within h.reserved.names _).trans hw
  leave hok h := h.leave (fun e => hok.own (e ▸ List.mem_cons_self))
    fun e => hok.root (e ▸ List.mem_cons_self)
  release h hM := release_lifted h hf fun n hn => by
    obtain ⟨Γ, T, Δ, U, hR, rfl⟩ := hM n hn
    obtain ⟨j, hΓ, -⟩ := hR.freshName
    exact ⟨j, hΓ⟩
  comparable _ _ _ h hc := by
    cases h.types
    exact comparable_lifted h hc
  merge _ _ _ _ _ h₁ h₂ hm := by
    obtain ⟨Δ', hm', h'⟩ := merge_lifted h₁ h₂ hm
    exact ⟨Δ', _, hm', h'⟩

end Checker

end Ownership
