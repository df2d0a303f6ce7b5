import Ownership.Proofs.Checking.Sites
import Ownership.Proofs.Checking.Writes
import Ownership.Term.Parts

/-!
# What is parked stays as it is

All that is borrowed is from variables that a program names. If none of these is a temporary no
write gets to one, and whatever is parked stays whole (`Env.Reserved`). The next temporary is the
first that is not bound, so it is the same in environments that bind the same ones.

* `Env.freshName_congr`: **the next temporary depends on the temporaries that are bound only.**
* `Env.Reserved.read`, `Env.Reserved.write`, `Env.Reserved.merge`: **no rule borrows from a variable
  that is not named, or takes a part out of a temporary.**
-/

namespace Ownership

variable {c : Checker} {variance : Variance} {Γ Γ₁ Γ₂ Γ' J : Env} {T T₁ T₂ U : Ty} {l : Lifetime}
variable {p : Place} {x : String} {m : Bool} {s : Slot} {N : List String} {a b : Site}

namespace Env

/-! ### The first temporary -/

/-- All temporaries before the fresh name are bound. -/
theorem freshName_first (Γ : Env) : ∃ i, Γ.freshName = temporary i ∧
    Γ.contains (temporary i) = false ∧ ∀ j < i, Γ.contains (temporary j) = true := by
  have hfresh : ∃ i, Γ.freshName = temporary i ∧
      (List.range (Γ.size + 1)).find? (fun i => !Γ.contains (temporary i)) = some i := by
    obtain ⟨⟨k, hk⟩, hn⟩ := freshName_spec Γ
    rw [freshName, List.find?_map] at hk ⊢
    cases hf : (List.range (Γ.size + 1)).find? ((fun n => !Γ.contains n) ∘ temporary) with
    | some i => exact ⟨i, rfl, hf⟩
    | none =>
      -- the empty text is no temporary
      rw [hf] at hk
      have hlen := congrArg String.length hk
      rw [temporary, String.length_append] at hlen
      have hdollar : "$tmp".length = 4 := rfl
      have hempty : ((Option.none (α := Nat)).map temporary).getD "" = "" := rfl
      rw [hempty] at hlen
      simp only [String.length_empty] at hlen
      omega
  obtain ⟨i, hi, hf⟩ := hfresh
  rw [List.find?_range_eq_some] at hf
  exact ⟨i, hi, by simpa using hf.1, fun j hj => by simpa using hf.2.2 j hj⟩

theorem freshName_eq {i : Nat} (hfree : Γ.contains (temporary i) = false)
    (hbefore : ∀ j < i, Γ.contains (temporary j) = true) : Γ.freshName = temporary i := by
  obtain ⟨k, hk, hfree', hbefore'⟩ := freshName_first Γ
  rcases Nat.lt_trichotomy i k with hlt | rfl | hlt
  · rw [hbefore' i hlt] at hfree
    cases hfree
  · exact hk
  · rw [hbefore k hlt] at hfree'
    cases hfree'

/-- **The next temporary depends on the temporaries that are bound only.** -/
theorem freshName_congr (h : ∀ i, Γ.contains (temporary i) = Γ'.contains (temporary i)) :
    Γ.freshName = Γ'.freshName := by
  obtain ⟨i, hi, hfree, hbefore⟩ := freshName_first Γ'
  rw [hi]
  exact freshName_eq ((h i).trans hfree) fun j hj => (h j).trans (hbefore j hj)

/-! ### What a program names -/

/-- **What is parked is whole, and all that is borrowed is from variables named in `N`**, also by
what is evaluated. -/
structure Reserved (N : List String) (Γ : Env) (T : Ty) : Prop where
  parked : ∀ i s, Γ.get? (temporary i) = some s → s.ty.defined = true
  named : ∀ x s m p, Γ.get? x = some s → s.ty.Lends m p → p.name ∈ N
  whole : T.defined = true
  names : ∀ m p, T.Lends m p → p.name ∈ N

/-- No temporary is named in `N`. -/
abbrev Unparked (N : List String) : Prop := ∀ x ∈ N, ∀ i, x ≠ temporary i

namespace Reserved

/-- Something whole has been evaluated that borrows nothing else. -/
theorem retype (h : Reserved N Γ T) (hd : U.defined = true)
    (hU : ∀ m p, U.Lends m p → p.name ∈ N) : Reserved N Γ U := ⟨h.parked, h.named, hd, hU⟩

theorem unit (h : Reserved N Γ T) : Reserved N Γ .unit :=
  h.retype rfl fun _ _ hp => absurd hp Ty.not_lends_unit

theorem int (h : Reserved N Γ T) : Reserved N Γ .int :=
  h.retype rfl fun _ _ hp => absurd hp Ty.not_lends_int

theorem box (h : Reserved N Γ T) : Reserved N Γ (.box T) :=
  h.retype h.whole fun m p hp => h.names m p (Ty.lends_box.1 hp)

theorem borrowOf (h : Reserved N Γ T) (hp : p.name ∈ N) : Reserved N Γ (.borrowOf m p) :=
  h.retype rfl fun n q hq => by
    obtain ⟨-, rfl⟩ := Ty.lends_borrowOf.1 hq
    exact hp

theorem empty : Reserved N .empty .unit :=
  ⟨nofun, nofun, rfl, fun _ _ hp => absurd hp Ty.not_lends_unit⟩

/-- A variable is bound, or an operand is parked. -/
theorem insert (h : Reserved N Γ T) (x : String) (l : Lifetime) :
    Reserved N (Γ.insert x ⟨T, l⟩) .unit where
  parked := by
    intro i s hs
    rcases NameMap.get?_insert_some hs with ⟨-, rfl⟩ | ⟨-, hs⟩
    · exact h.whole
    · exact h.parked i s hs
  named := by
    intro y s m p hs hp
    rcases NameMap.get?_insert_some hs with ⟨-, rfl⟩ | ⟨-, hs⟩
    · exact h.names m p hp
    · exact h.named y s m p hs hp
  whole := rfl
  names := h.unit.names

/-- Variables are forgotten. -/
theorem sub (h : Reserved N Γ T) (hsub : ∀ x s, Γ'.get? x = some s → Γ.get? x = some s) :
    Reserved N Γ' T :=
  ⟨fun i s hs => h.parked i s (hsub _ s hs), fun x s m p hs => h.named x s m p (hsub x s hs),
    h.whole, h.names⟩

/-- Operands are given back as they have been parked. -/
theorem release {K : List String} (h : Reserved N Γ .unit)
    (hK : ∀ n ∈ K, ∃ i, n = temporary i) :
    Reserved N (NameMap.eraseAll Γ K)
      (.compound (K.filterMap fun n => (Γ.get? n).map (·.ty))) := by
  have found : ∀ T ∈ K.filterMap fun n => (Γ.get? n).map (·.ty),
      ∃ i s, Γ.get? (temporary i) = some s ∧ s.ty = T := by
    intro T hT
    obtain ⟨n, hn, hT⟩ := List.mem_filterMap.1 hT
    obtain ⟨i, rfl⟩ := hK n hn
    obtain ⟨s, hs, rfl⟩ := Option.map_eq_some_iff.1 hT
    exact ⟨i, s, hs, rfl⟩
  refine (h.sub fun _ _ hs => (NameMap.get?_eraseAll_some.1 hs).2).retype ?_ fun m p hp => ?_
  · rw [Ty.defined, Ty.allDefined_eq, List.all_eq_true]
    intro T hT
    obtain ⟨i, s, hs, rfl⟩ := found T hT
    exact h.parked i s hs
  · obtain ⟨T, hT, hp⟩ := Ty.lends_compound.1 hp
    obtain ⟨i, s, hs, rfl⟩ := found T hT
    exact h.named _ s m p hs hp

/-- What is read is whole. -/
theorem read {k : AccessKind} (h : Reserved N Γ U) (hN : Unparked N) (hp : p.name ∈ N)
    (hr : c.read Γ k p = .ok (Γ', T)) : Reserved N Γ' T := by
  obtain ⟨s, hs, ha, ht, hcase⟩ := Checker.read_ok hr
  have hnames : ∀ m q, T.Lends m q → q.name ∈ N := by
    intro m q hq
    obtain ⟨x, s', -, hs', hq⟩ := lends_of_typeOf ht hq
    exact h.named x s' m q hs' hq
  rcases hcase with ⟨hc, rfl⟩ | ⟨-, -, u, hf, rfl⟩
  · refine h.retype (Ty.defined_of_copyable ?_) hnames
    cases k with
    | copy =>
      simp only [Checker.copies] at hc
      split at hc
      · assumption
      · cases hc
    | move => cases hc
    | inferred =>
      simp only [Checker.copies, Except.ok.injEq, Bool.and_eq_true] at hc
      exact hc.2
  · -- a place that is moved out of has been whole
    cases typeOf_reached hs hf ht
    have hwhole : T.defined = true := by
      rcases availability_false hs ha with ⟨v, hv, hd⟩ | ⟨m, ps, rest, hv⟩
      · cases hf.symm.trans hv
        exact hd
      · cases hf.symm.trans hv
    refine ⟨fun i s' hs' => ?_, fun x s' m q hs' hq => ?_, hwhole, hnames⟩
    · rcases NameMap.get?_insert_some hs' with ⟨e, -⟩ | ⟨-, hs'⟩
      · exact absurd e.symm (hN _ hp i)
      · exact h.parked i s' hs'
    · rcases NameMap.get?_insert_some hs' with ⟨-, rfl⟩ | ⟨-, hs'⟩
      · exact h.named _ s m q hs (Ty.lends_of_moved hf hq)
      · exact h.named x s' m q hs' hq

/-- No write gets to what is parked. -/
theorem write {strong : Bool} (h : Reserved N Γ T) (hN : Unparked N) (hp : p.name ∈ N)
    (hw : write variance Γ p T strong = .ok Γ') : Reserved N Γ' .unit := by
  have hslots : Γ.Slots (fun x s => (∀ m q, s.ty.Lends m q → q.name ∈ N) ∧
      ∀ i, x = temporary i → s.ty.defined = true) Γ' := by
    refine writeUpTo_slots (Q := fun q => q.name ∈ N)
      (fun q s ps rest t _ hR hf ht => hR.1 true t (Ty.lends_of_crossed hf ht))
      (fun Γ₁ q s old new h₁ hq hadm hf hnew => ⟨?_, fun i e => absurd e (hN _ hq i)⟩)
      ⟨fun _ => Iff.rfl,
        fun x s hs => ⟨fun m q => h.named x s m q hs, fun i e => h.parked i s (e ▸ hs)⟩⟩ hp hw
    intro m t ht
    exact (Ty.lends_of_put hf (hnew.imp_left And.right) ht).elim
      ((h₁.slot _ _ hadm.slot).1 m t) (h.names m t)
  exact ⟨fun i s hs => (hslots.slot _ s hs).2 i rfl,
    fun x s m q hs => (hslots.slot x s hs).1 m q, rfl, h.unit.names⟩

theorem merge (h₁ : Reserved N Γ₁ T₁) (h₂ : Reserved N Γ₂ T₂)
    (hm : c.merge (Γ₁, T₁) (Γ₂, T₂) = .ok (J, T)) : Reserved N J T := by
  obtain ⟨-, hj, hu⟩ := Checker.merge_ok hm
  refine ⟨fun i s hs => ?_, fun x s m p hs hp => ?_, Ty.defined_union hu h₁.whole h₂.whole,
    fun m p hp => ((Ty.lends_union hu).1 hp).elim (h₁.names m p) (h₂.names m p)⟩
  · obtain ⟨left, right, hl, hr, -, -, ht⟩ := joined_of_join hj hs
    exact Ty.defined_union ht (h₁.parked i left hl) (h₂.parked i right hr)
  · obtain ⟨left, right, hl, hr, -, -, ht⟩ := joined_of_join hj hs
    exact ((Ty.lends_union ht).1 hp).elim (h₁.named x left m p hl) (h₂.named x right m p hr)

end Reserved

end Env

/-! ### Names of visited terms -/

/-- A part of a term names no more than the term. -/
theorem Checker.Calls.names_subset (h : c.Calls a b) : b.term.names ⊆ a.term.names := by
  cases h with
  | init => exact List.subset_cons_self ..
  | source => exact List.subset_cons_self ..
  | content => exact List.Subset.refl _
  | statement => exact fun x hx => Term.mem_allNames.2 ⟨_, by simp, hx⟩
  | operand => exact fun x hx => Term.mem_allNames.2 ⟨_, by simp, hx⟩
  | left => exact fun x hx => Term.mem_allNames.2 ⟨_, by simp, hx⟩
  | right => exact fun x hx => Term.mem_allNames.2 ⟨_, by simp, hx⟩
  | onTrue => exact fun x hx => Term.mem_allNames.2 ⟨_, by simp, hx⟩
  | onFalse => exact fun x hx => Term.mem_allNames.2 ⟨_, by simp, hx⟩

theorem Checker.Visits.names_subset (h : c.Visits a b) : b.term.names ⊆ a.term.names := by
  induction h with
  | refl => exact List.Subset.refl _
  | tail _ hcall ih => exact List.Subset.trans hcall.names_subset ih

/-- What a term declares is named in it. -/
theorem Term.declares_subset_names (t : Term) : t.declares ⊆ t.names := by
  intro x hx
  induction t with
  | letMut s y ys t ih =>
    rcases List.mem_cons.1 hx with rfl | hx
    · exact List.mem_cons_self
    · exact List.mem_cons_of_mem _ (ih hx)
  | assign s p t ih => exact List.mem_cons_of_mem _ (ih hx)
  | box s t ih => exact ih hx
  | ext s o ts ih =>
    obtain ⟨t, ht, hx⟩ := mem_allDeclares.1 hx
    exact mem_allNames.2 ⟨t, ht, ih t ht hx⟩
  | block => cases hx
  | access => cases hx
  | borrow => cases hx
  | value => cases hx

/-- The blocks of a part are blocks of the term. -/
theorem Checker.Calls.lifetimes_subset (h : c.Calls a b) :
    b.term.lifetimes ⊆ a.term.lifetimes := by
  cases h with
  | init => exact List.Subset.refl _
  | source => exact List.Subset.refl _
  | content => exact List.Subset.refl _
  | statement =>
    exact fun k hk => List.mem_cons_of_mem _ (Term.mem_allLifetimes.2 ⟨_, by simp, hk⟩)
  | operand => exact fun k hk => Term.mem_allLifetimes.2 ⟨_, by simp, hk⟩
  | left => exact fun k hk => Term.mem_allLifetimes.2 ⟨_, by simp, hk⟩
  | right => exact fun k hk => Term.mem_allLifetimes.2 ⟨_, by simp, hk⟩
  | onTrue => exact fun k hk => Term.mem_allLifetimes.2 ⟨_, by simp, hk⟩
  | onFalse => exact fun k hk => Term.mem_allLifetimes.2 ⟨_, by simp, hk⟩

theorem Checker.Visits.lifetimes_subset (h : c.Visits a b) :
    b.term.lifetimes ⊆ a.term.lifetimes := by
  induction h with
  | refl => exact List.Subset.refl _
  | tail _ hcall ih => exact List.Subset.trans hcall.lifetimes_subset ih

end Ownership
