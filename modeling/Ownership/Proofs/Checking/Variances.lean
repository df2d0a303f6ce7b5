import Ownership.Proofs.Checking.Comparisons

/-!
# The stricter variance

Under the invariant policy the referents of two mutable borrows have to be the same type. That is
the end of it there, but the covariant policy goes on behind their borrows, where it may find a
place that has no type. So more is accepted under the covariant policy only where what is compared
has shapes, and types for all that is borrowed (`Checker.Surveyed`).

* `Checker.accepts_covariant`: **a program that is accepted under the invariant policy is accepted
  under the covariant one**, if what is compared has shapes and types.
* `Checker.accepts_covariant_rearranged`: a program that only the invariant policy accepts.
-/

namespace Ownership

variable {variance : Variance} {σ : String → Shape} {Γ Γ₁ Γ' lhs rhs J : Env} {p : Place}
variable {T T₁ T₂ ty : Ty} {n : Nat} {strong : Bool} {c : Checker} {s : Slot}

/-- **A write comes to a place**, after it has been made to the targets before it on each borrow. -/
inductive Writes (variance : Variance) (ty : Ty) : Env → Place → Env → Place → Prop where
  | here {Γ : Env} {p : Place} : Writes variance ty Γ p Γ p
  | target {Γ Γ₁ Δ : Env} {p q t : Place} {s : Slot} {ps : PlaceSet} {rest : List Selector}
      {before after : List Place} {n : Nat} : Γ.get? p.name = some s →
      s.ty.follow p.path = .crossed true ps rest →
      ps.toList.map (·.extend rest) = before ++ t :: after →
      before.foldlM (writeUpTo variance ty n false) Γ = .ok Γ₁ → Writes variance ty Γ₁ t Δ q →
      Writes variance ty Γ p Δ q

/-- A fold does what another one does whose steps do the same after the same steps. -/
theorem foldlM_of_prefixes {α β ε : Type} {f g : β → α → Except ε β} {as : List α} {b c : β}
    (step : ∀ before a after b₁ b₂, as = before ++ a :: after → before.foldlM f b = .ok b₁ →
      f b₁ a = .ok b₂ → g b₁ a = .ok b₂)
    (h : as.foldlM f b = .ok c) : as.foldlM g b = .ok c := by
  induction as generalizing b with
  | nil => exact h
  | cons a as ih =>
    rw [List.foldlM_cons, Traced.bind_eq_ok] at h
    obtain ⟨b₁, h₁, h⟩ := h
    rw [List.foldlM_cons, step [] a as b b₁ rfl rfl h₁, Traced.ok_bind]
    refine ih (fun before a' after b₂ b₃ e h₂ => ?_) h
    exact step (a :: before) a' after b₂ b₃ (by rw [e]; rfl)
      (by rw [List.foldlM_cons, h₁, Traced.ok_bind, h₂])

/-! ### Tests that are made on the way -/

/-- The place passes the tests of a write under the covariant policy, too. -/
theorem Admits.covariant (h : Kept LentTyped σ Γ ty) (ha : Admits variance Γ p ty s) :
    Admits .covariant Γ p ty s := by
  obtain ⟨current, ht, hc⟩ := ha.compatible
  exact ⟨ha.slot, ha.within, current, ht, compatible_covariant (h.found ht) h hc⟩

/-- **A write goes the same way** if shapes decide wherever it comes. -/
theorem writeUpTo_covariant
    (hs : ∀ Δ q, Writes variance ty Γ p Δ q → ∃ σ, Kept LentTyped σ Δ ty)
    (h : writeUpTo variance ty n strong Γ p = .ok Γ') :
    writeUpTo .covariant ty n strong Γ p = .ok Γ' := by
  induction n generalizing strong Γ p Γ' with
  | zero => cases h
  | succ n ih =>
    obtain ⟨s, ha, hcase⟩ := writeUpTo_ok h
    obtain ⟨σ, hσ⟩ := hs Γ p .here
    have ha' := ha.covariant hσ
    rcases hcase with ⟨old, new, hf, rfl, hnew⟩ | ⟨ps, rest, Γ₁, hf, hfold, rfl⟩
    · exact writeUpTo_of_reached ha' hf hnew
    · refine writeUpTo_of_crossed ha' hf (foldlM_of_prefixes ?_ hfold)
      intro before t after Δ Δ' e hbefore ht
      exact ih (fun Δ₁ q hw => hs Δ₁ q (.target ha.slot hf e hbefore hw)) ht

theorem join_covariant (h₁ : Kept LentTyped σ lhs T₁) (h₂ : Kept LentTyped σ rhs T₂)
    (hj : join variance lhs rhs = .ok J) : join .covariant lhs rhs = .ok J := by
  obtain ⟨hnone, hsome⟩ := join_eq_ok.1 hj
  refine join_eq_ok.2 ⟨hnone, fun x left hl => ?_⟩
  obtain ⟨right, t, hr, hlife, hc, hu, hJ⟩ := hsome x left hl
  exact ⟨right, t, hr, hlife, compatible_covariant (h₁.slot hl) (h₂.slot hr) hc, hu, hJ⟩

namespace Checker

/-- **Shapes decide what is compared at the site**, in a conditional and wherever a write comes:
variables have shapes there, and every place that is borrowed has a type. -/
structure Surveyed (c : Checker) (a : Site) : Prop where
  sides : ∀ x y, c.Compares a x y →
    ∃ σ, Kept LentTyped σ x.1 x.2 ∧ Kept LentTyped σ y.1 y.2
  writes : ∀ sp p t Γ T Δ q, a.term = .assign sp p t →
    (c.apply a.env a.lifetime t).result = .ok (Γ, T) → Writes c.variance T Γ p Δ q →
    ∃ σ, Kept LentTyped σ Δ T

/-- The checker with the covariant policy. -/
def covariant (c : Checker) : Checker := { c with variance := .covariant }

/-- Both checkers have found the same. -/
def Same : Pairing := fun Γ T Δ U => Δ = Γ ∧ U = T

/-- **No rule tells the policies apart** where shapes decide. -/
theorem simulation_covariant (c : Checker) : Simulation c c.covariant id c.Surveyed Same where
  forms := rfl
  forget := by
    rintro Γ T Δ U ⟨rfl, rfl⟩
    exact ⟨rfl, rfl⟩
  int := by
    rintro Γ Δ ⟨rfl, -⟩
    exact ⟨rfl, rfl⟩
  box := by
    rintro Γ T Δ U ⟨rfl, rfl⟩
    exact ⟨rfl, rfl⟩
  contains := by
    rintro Γ Δ l t x - - ⟨rfl, -⟩
    rfl
  fresh := by
    rintro Γ T Δ U ⟨rfl, -⟩
    rfl
  read := by
    rintro Γ Γ' Δ T l sp k p - ⟨rfl, -⟩ hr
    exact ⟨Γ', T, hr, rfl, rfl⟩
  borrow := by
    rintro Γ Δ T l sp m p - ⟨rfl, -⟩ hb
    exact ⟨T, hb, rfl, rfl⟩
  bind := by
    rintro Γ Γ₁ Δ₁ T U l sp x xs t - ⟨rfl, rfl⟩
    exact ⟨rfl, rfl⟩
  hold := by
    rintro Γ T Δ U ⟨rfl, rfl⟩ l
    exact ⟨rfl, rfl⟩
  assign := by
    rintro Γ Γ₁ Γ' Δ₁ T U l sp p t hok hr ⟨rfl, rfl⟩ ha
    obtain ⟨hav, hw, hT, hwrite⟩ := assign_eq_ok.1 ha
    have hwrite' := writeUpTo_covariant (hok.writes sp p t _ _ · · rfl hr) hwrite
    exact ⟨Γ', assign_eq_ok.2 ⟨hav, hw, hT, hwrite'⟩, rfl, rfl⟩
  within := by
    rintro Γ T Δ U l ⟨rfl, rfl⟩ hw
    exact hw
  leave := by
    rintro Γ Γ₁ Δ₁ T U l sp inner ts - ⟨rfl, rfl⟩
    exact ⟨rfl, rfl⟩
  release := by
    rintro Γ Δ N ⟨rfl, -⟩ -
    rw [List.map_id]
    exact ⟨rfl, rfl⟩
  comparable := by
    rintro Γ Γ₁ Δ₁ l sp o e lhs rhs onTrue onFalse Ts Us hok hform ho ⟨rfl, hU⟩ hc
    cases hU
    unfold Checker.comparable at hc ⊢
    split at hc
    · obtain ⟨σ, hl, hr⟩ := hok.sides _ _ (.operands hform ho)
      exact expect_eq_ok.2 (compatible_covariant hl hr (expect_eq_ok.1 hc))
    · rfl
  merge := by
    rintro Γ Γ₁ Γ' T l sp o e lhs rhs onTrue onFalse Ts left right Δl Ul Δr Ur hok hform ho htt hff
      ⟨rfl, rfl⟩ ⟨rfl, rfl⟩ hm
    obtain ⟨σ, hl, hr⟩ := hok.sides _ _ (.arms hform ho htt hff)
    obtain ⟨hc, hj, hu⟩ := merge_eq_ok.1 hm
    exact ⟨Γ', T, merge_eq_ok.2 ⟨compatible_covariant hl hr hc, join_covariant hl hr hj, hu⟩,
      rfl, rfl⟩

/-- **The invariant policy is the stricter one where shapes decide.** A program that is accepted
under it is accepted under the covariant policy, with the same type, if wherever types are compared
the variables have shapes and every place that is borrowed has a type. -/
theorem accepts_covariant (extensions : List Extension) (root : Lifetime) (program : Term) (T : Ty)
    (hs : ∀ b, Visits { variance := .invariant, extensions } ⟨.empty, root, program⟩ b →
      Surveyed { variance := .invariant, extensions } b)
    (h : (checkProgram { variance := .invariant, extensions } root program).result = .ok T) :
    (checkProgram { variance := .covariant, extensions } root program).result = .ok T := by
  obtain ⟨Γ, -, U, h', rfl, rfl⟩ :=
    (simulation_covariant { variance := .invariant, extensions }).checkProgram ⟨rfl, rfl⟩ hs h
  rwa [Term.rename_id] at h'

/-- `{ let mut x = 1; let mut y = 1; let mut p = &mut x; p = &mut y; }` -/
def repoint : Term :=
  .block {} (.inside 1 (.root 0)) [.letMut {} "x" {} (.value {} (.int 1)),
    .letMut {} "y" {} (.value {} (.int 1)), .letMut {} "p" {} (.borrow {} true (.var "x")),
    .assign {} (.var "p") (.borrow {} true (.var "y"))]

/-- The variables of `repoint` before the assignment. -/
def repointed : Env := .declaring (.inside 1 (.root 0))
  [("x", .int), ("y", .int), ("p", .borrowOf true (.var "x"))]

theorem accepts_covariant_repoint :
    (∀ b, Visits { variance := .invariant, extensions := Extension.all }
      ⟨.empty, .root 0, repoint⟩ b →
      Surveyed { variance := .invariant, extensions := Extension.all } b) ∧
    (checkProgram { variance := .invariant, extensions := Extension.all } (.root 0)
      repoint).result = .ok .unit ∧
    (checkProgram { variance := .covariant, extensions := Extension.all } (.root 0)
      repoint).result = .ok .unit := by
  have listed : (sites { variance := .invariant, extensions := Extension.all } .empty (.root 0)
      repoint).all (fun b => match b.term with
        | .ext .. => false
        | .assign _ p t => p = .var "p" && (apply
            { variance := .invariant, extensions := Extension.all } b.env b.lifetime t).result =
              .ok (repointed, .borrowOf true (.var "y"))
        | _ => true) = true := by decide
  have hs : ∀ b, Visits { variance := .invariant, extensions := Extension.all }
      ⟨.empty, .root 0, repoint⟩ b →
      Surveyed { variance := .invariant, extensions := Extension.all } b := by
    intro b hb
    have hsite := List.all_eq_true.1 listed b (mem_sites hb)
    refine ⟨fun x y hxy => ?_, fun sp p t Γ T Δ q ht hr hw => ?_⟩
    · cases hxy <;> cases hsite
    · rw [ht] at hsite
      obtain ⟨hp, hfound⟩ := Bool.and_eq_true_iff.1 hsite
      cases of_decide_eq_true hp
      cases hr.symm.trans (of_decide_eq_true hfound)
      -- `p` is reached at once
      cases hw with
      | here => exact ⟨_, .of_level (N := ["x", "y"]) rfl rfl⟩
      | target hs hf _ _ _ =>
        cases hs
        cases hf
  exact ⟨hs, rfl, accepts_covariant Extension.all (.root 0) repoint .unit hs rfl⟩

/-- `{ let mut p = box 1; let mut q = 2; let mut x = &q; let mut y = &q;`
`if 1 == 1 { x = &*p; y = &*p; } else { let mut m = move p; } let mut u = &mut x; u = &mut y; }`,
with a name for `q`. Whichever of `*p` and `q` comes first stands for both. -/
def rearrange (q : String) : Term :=
  .block {} (.inside 1 (.root 0)) [.letMut {} "p" {} (.box {} (.value {} (.int 1))),
    .letMut {} q {} (.value {} (.int 2)), .letMut {} "x" {} (.borrow {} false (.var q)),
    .letMut {} "y" {} (.borrow {} false (.var q)),
    .ext {} 40 [.value {} (.int 1), .value {} (.int 1),
      .block {} (.inside 1 (.inside 1 (.root 0)))
        [.assign {} (.var "x") (.borrow {} false (Place.var "p").deref),
          .assign {} (.var "y") (.borrow {} false (Place.var "p").deref)],
      .block {} (.inside 2 (.inside 1 (.root 0)))
        [.letMut {} "m" {} (.access {} .move (.var "p"))]],
    .letMut {} "u" {} (.borrow {} true (.var "x")),
    .assign {} (.var "u") (.borrow {} true (.var "y"))]

/-- **The covariant policy may refuse what the invariant one accepts.** The one arm borrows from
`p`, and the other one moves `p` away. After that `*p` has no type, and is the first target. -/
theorem accepts_covariant_rearranged :
    (checkProgram { variance := .invariant, extensions := Extension.all } (.root 0)
      (rearrange "q")).result = .ok .unit ∧
    (checkProgram { variance := .covariant, extensions := Extension.all } (.root 0)
      (rearrange "q")).result = .error ⟨.incompatible (.borrowOf true (.var "x"))
        (.borrowOf true (.var "y")), {}⟩ :=
  ⟨rfl, rfl⟩

end Checker

end Ownership
