import Ownership.Proofs.Checking.Acyclic
import Ownership.Proofs.Checking.Compatibility
import Ownership.Proofs.Checking.Variances

/-!
# Why types are found incompatible

Joins, the ends of conditionals and weak writes compare two types before they unite them, and report
the same error if the types are not compatible and if they have no union. Compatible types have a
union, so the second case never comes up: whoever reports two types has found that they are not
compatible (`joinSlot_incompatible`, `Checker.expect_incompatible`). A write may also pass on that
the targets of a borrow on its way have no union of their own.

* `incompatible_of_error`: **two types are reported only where a comparison has failed**, and what
  has been compared has a union.
-/

namespace Ownership

variable {variance : Variance} {Γ Γ₁ Γ₂ lhs rhs : Env} {a b T U ty : Ty} {n : Nat} {strong : Bool}
variable {p : Place} {x : String} {left right s : Slot} {v : Violation} {c : Checker}

theorem typeOf?_ne_error (hv : v ≠ .endless) : typeOf? Γ p ≠ .error v := by
  intro he
  obtain h | ⟨r, h⟩ := typeOf?_cases Γ p
  · rw [h] at he
    cases he
    exact hv rfl
  · rw [h] at he
    cases he

/-- A comparison has a result, unless it does not end. -/
theorem compatible_ne_error (hv : v ≠ .endless) : compatible variance Γ₁ a b Γ₂ ≠ .error v := by
  rw [compatible]
  generalize Γ₁.targets.length * Γ₂.targets.length + 2 = n
  induction n generalizing a b with
  | zero =>
    intro he
    cases he
    exact hv rfl
  | succ n ih =>
    intro he
    obtain ⟨-, p, q, -, -, he | he | ⟨r₁, r₂, -, -, he⟩⟩ := compatibleUpTo_error he
    · exact typeOf?_ne_error hv he
    · exact typeOf?_ne_error hv he
    · exact ih he

/-! ### Joins -/

/-- **A join reports the types of a variable just if they are not compatible.** -/
theorem joinSlot_incompatible :
    joinSlot variance lhs rhs x left right = .error (.incompatible T U) ↔
      left.lifetime = right.lifetime ∧ left.ty = T ∧ right.ty = U ∧
        compatible variance lhs T U rhs = .ok false := by
  constructor
  · intro h
    rw [joinSlot] at h
    by_cases hl : left.lifetime = right.lifetime
    · simp only [hl, ne_eq, not_true_eq_false, if_false, Traced.bind_eq_error] at h
      obtain h | ⟨b, hb, h⟩ := h
      · exact absurd h (compatible_ne_error Violation.noConfusion)
      · cases b with
        | false =>
          cases h
          exact ⟨hl, rfl, rfl, hb⟩
        | true =>
          obtain ⟨t, ht⟩ := exists_union_of_compatible hb
          simp only [ht] at h
          cases h
    · simp only [ne_eq, hl, not_false_eq_true, if_true] at h
      cases h
  · rintro ⟨hl, rfl, rfl, hc⟩
    rw [joinSlot, if_neg (not_not_intro hl)]
    simp only [hc]
    rfl

theorem join_incompatible (h : join variance lhs rhs = .error (.incompatible T U)) :
    ∃ x left right, lhs.get? x = some left ∧ rhs.get? x = some right ∧ left.ty = T ∧
      right.ty = U ∧ compatible variance lhs T U rhs = .ok false := by
  rw [join] at h
  by_cases hs : lhs.size = rhs.size
  · simp only [hs, ne_eq, not_true_eq_false, if_false] at h
    obtain ⟨⟨x, left⟩, hx, out, -, h⟩ :=
      foldlM_fails (I := fun _ => True) (fun _ _ _ _ _ _ => trivial) trivial h
    have hleft := NameMap.mem_entries_iff.1 hx
    cases hright : rhs.get? x with
    | none =>
      simp only [hright] at h
      cases h
    | some right =>
      simp only [hright, Traced.bind_eq_error] at h
      obtain h | ⟨t, -, h⟩ := h
      · obtain ⟨-, hT, hU, hc⟩ := joinSlot_incompatible.1 h
        exact ⟨x, left, right, hleft, hright, hT, hU, hc⟩
      · cases h
  · simp only [ne_eq, hs, not_false_eq_true, if_true] at h
    cases h

/-! ### Conditionals -/

namespace Checker

theorem expect_incompatible {Γ₁ Γ₂ : Env} {a b : Ty} :
    c.expect Γ₁ a b Γ₂ = .error (.incompatible T U) ↔
      a = T ∧ b = U ∧ compatible c.variance Γ₁ T U Γ₂ = .ok false := by
  rw [expect, Traced.bind_eq_error]
  constructor
  · rintro (h | ⟨k, hk, h⟩)
    · exact absurd h (compatible_ne_error Violation.noConfusion)
    · cases k with
      | false =>
        cases h
        exact ⟨rfl, rfl, hk⟩
      | true => cases h
  · rintro ⟨rfl, rfl, hc⟩
    exact .inr ⟨false, hc, rfl⟩

theorem merge_incompatible {onTrue onFalse : Env × Ty}
    (h : c.merge onTrue onFalse = .error (.incompatible T U)) :
    (onTrue.2 = T ∧ onFalse.2 = U ∧ compatible c.variance onTrue.1 T U onFalse.1 = .ok false) ∨
      join c.variance onTrue.1 onFalse.1 = .error (.incompatible T U) := by
  rw [merge, Traced.bind_eq_error] at h
  obtain h | ⟨⟨⟩, he, h⟩ := h
  · exact .inl (expect_incompatible.1 h)
  · obtain h | ⟨J, -, h⟩ := Traced.bind_eq_error.1 h
    · exact .inr h
    · obtain ⟨t, ht⟩ := exists_union_of_compatible (expect_ok he)
      simp only [ht] at h
      cases h

end Checker

/-! ### Writes -/

/-- A fold that fails does so after some of its steps. -/
theorem foldlM_error {α β ε : Type} {f : β → α → Except ε β} {as : List α} {b : β} {e : ε}
    (h : as.foldlM f b = .error e) : ∃ before a after b', as = before ++ a :: after ∧
      before.foldlM f b = .ok b' ∧ f b' a = .error e := by
  induction as generalizing b with
  | nil => cases h
  | cons a as ih =>
    rw [List.foldlM_cons, Traced.bind_eq_error] at h
    obtain h | ⟨b₁, h₁, h⟩ := h
    · exact ⟨[], a, as, b, rfl, rfl, h⟩
    · obtain ⟨before, d, after, b', rfl, hbefore, hd⟩ := ih h
      exact ⟨a :: before, d, after, b', rfl, by rw [List.foldlM_cons, h₁, Traced.ok_bind, hbefore],
        hd⟩

/-- **Wherever a write reports two types**, they have been compared and are not compatible, or the
targets of a borrow that the place is behind have no union. -/
theorem writeUpTo_incompatible
    (h : writeUpTo variance ty n strong Γ p = .error (.incompatible T U)) :
    ∃ Δ q, Writes variance ty Γ p Δ q ∧ (typeOf Δ q = .error (.incompatible T U) ∨
      typeOf Δ q = .ok T ∧ ty = U ∧ compatible variance Δ T U Δ = .ok false) := by
  induction n generalizing strong Γ p with
  | zero => cases h
  | succ n ih =>
    obtain ⟨-, h⟩ | ⟨s, hs, ⟨-, h⟩ | h | ⟨current, ht, hcase⟩⟩ := writeUpTo_error h
    · cases h
    · cases h
    · exact ⟨Γ, p, .here, .inl h⟩
    · obtain h | ⟨hc, h⟩ | ⟨hc, ⟨ps, rest, hf, h⟩ | ⟨old, hf, -, hu, h⟩ | h | h | h⟩ := hcase
      · exact absurd h (compatible_ne_error Violation.noConfusion)
      · cases h
        exact ⟨Γ, p, .here, .inr ⟨ht, rfl, hc⟩⟩
      · obtain ⟨before, t, after, Γ₁, e, hbefore, h⟩ := foldlM_error h
        obtain ⟨Δ, q, hw, hq⟩ := ih h
        exact ⟨Δ, q, .target hs hf e hbefore hw, hq⟩
      · -- what is reached is what has been compared
        cases typeOf_reached hs hf ht
        obtain ⟨t, ht⟩ := exists_union_of_compatible hc
        rw [hu] at ht
        cases ht
      all_goals cases h

/-- **A write to a part of a variable reports its type just if what is written is not compatible
with it.** -/
theorem write_incompatible {old : Ty} (hs : Γ.get? p.name = some s)
    (hf : s.ty.follow p.path = .reached old) :
    write variance Γ p ty strong = .error (.incompatible T U) ↔
      Γ.within ty s.lifetime = true ∧ old = T ∧ ty = U ∧
        compatible variance Γ T U Γ = .ok false := by
  have ht : typeOf Γ p = .ok old := typeOf_of_typeUpTo (n := 1) (typeUpTo_of_reached hs hf)
  have hbound := lt_crossings (Γ.weight + ty.weight) (Γ.targets.length + ty.borrowed.length) p
  rw [write]
  generalize crossings _ _ p = n at hbound ⊢
  obtain ⟨n, rfl⟩ : ∃ k, n = k + 1 := ⟨n - 1, by omega⟩
  constructor
  · intro h
    cases hw : Γ.within ty s.lifetime with
    | false =>
      simp only [writeUpTo, declared_ok.2 hs, hw, Traced.ok_bind] at h
      cases h
    | true =>
      obtain ⟨Δ, q, hwrites, hq⟩ := writeUpTo_incompatible h
      cases hwrites with
      | here =>
        obtain hq | ⟨hq, hU, hc⟩ := hq
        · rw [ht] at hq
          cases hq
        · cases ht.symm.trans hq
          exact ⟨rfl, rfl, hU, hc⟩
      | target hs' hf' =>
        cases hs.symm.trans hs'
        rw [hf] at hf'
        cases hf'
  · rintro ⟨hw, rfl, rfl, hc⟩
    simp only [writeUpTo, declared_ok.2 hs, hw, ht, hc, Traced.ok_bind]
    rfl

/-- **Two types are reported only where they have been compared, and are not compatible.** Types
that are compatible have a union, so no join, no end of a conditional and no write to a part of a
variable ever fails for the want of one. Behind a borrow the targets may also have no union among
themselves. -/
theorem incompatible_of_error (c : Checker) :
    (∀ Γ₁ Γ₂ T U, compatible c.variance Γ₁ T U Γ₂ = .ok true → ∃ V, T.union U = some V) ∧
    (∀ lhs rhs T U, join c.variance lhs rhs = .error (.incompatible T U) →
      ∃ x left right, lhs.get? x = some left ∧ rhs.get? x = some right ∧ left.ty = T ∧
        right.ty = U ∧ compatible c.variance lhs T U rhs = .ok false) ∧
    (∀ onTrue onFalse T U, c.merge onTrue onFalse = .error (.incompatible T U) →
      (onTrue.2 = T ∧ onFalse.2 = U ∧
          compatible c.variance onTrue.1 T U onFalse.1 = .ok false) ∨
        join c.variance onTrue.1 onFalse.1 = .error (.incompatible T U)) ∧
    (∀ Γ p ty strong s old T U, Γ.get? p.name = some s → s.ty.follow p.path = .reached old →
      (write c.variance Γ p ty strong = .error (.incompatible T U) ↔
        Γ.within ty s.lifetime = true ∧ old = T ∧ ty = U ∧
          compatible c.variance Γ T U Γ = .ok false)) ∧
    (∀ Γ p ty strong T U, write c.variance Γ p ty strong = .error (.incompatible T U) →
      ∃ Δ q, Writes c.variance ty Γ p Δ q ∧ (typeOf Δ q = .error (.incompatible T U) ∨
        typeOf Δ q = .ok T ∧ ty = U ∧ compatible c.variance Δ T U Δ = .ok false)) :=
  ⟨fun _ _ _ _ => exists_union_of_compatible, fun _ _ _ _ => join_incompatible,
    fun _ _ _ _ => Checker.merge_incompatible, fun _ _ _ _ _ _ _ _ => write_incompatible,
    fun _ _ _ _ _ _ => writeUpTo_incompatible⟩

/-- `&mut x` and `⊥&mut y` have a union. An integer and a box have none, but it is the comparison
that fails, in the join of two arms, at the end of a conditional and in a weak write. -/
theorem incompatible_of_error_int_box :
    (∃ V, (Ty.borrowOf true (.var "x")).union (.shadow (.borrowOf true (.var "y"))) = some V) ∧
    join .covariant (alone "x" .int) (alone "x" (.box .int)) =
      .error (.incompatible .int (.box .int)) ∧
    (∃ x left right, (alone "x" .int).get? x = some left ∧
      (alone "x" (.box .int)).get? x = some right ∧ left.ty = .int ∧ right.ty = .box .int ∧
      compatible .covariant (alone "x" .int) .int (.box .int) (alone "x" (.box .int)) =
        .ok false) ∧
    ((Ty.int = .int ∧ Ty.box .int = .box .int ∧
        compatible .covariant .empty .int (.box .int) .empty = .ok false) ∨
      join .covariant .empty .empty = .error (.incompatible .int (.box .int))) ∧
    write .covariant (alone "x" .int) (.var "x") (.box .int) false =
      .error (.incompatible .int (.box .int)) ∧
    compatible .covariant (alone "x" .int) .int (.box .int) (alone "x" .int) = .ok false ∧
    (∃ Δ q, Writes .covariant (.box .int) (alone "x" .int) (.var "x") Δ q ∧
      (typeOf Δ q = .error (.incompatible .int (.box .int)) ∨ typeOf Δ q = .ok .int ∧
        Ty.box .int = .box .int ∧ compatible .covariant Δ .int (.box .int) Δ = .ok false)) := by
  obtain ⟨hunion, hjoin, hmerge, hpart, hwrite⟩ := incompatible_of_error {}
  have hw : write .covariant (alone "x" .int) (.var "x") (.box .int) false =
      .error (.incompatible .int (.box .int)) :=
    (hpart _ _ _ false ⟨.int, .root 0⟩ .int _ _ rfl rfl).2 ⟨rfl, rfl, rfl, rfl⟩
  refine ⟨?_, rfl, hjoin _ _ _ _ rfl, hmerge (.empty, .int) (.empty, .box .int) _ _ rfl, hw,
    ((hpart _ _ _ false ⟨.int, .root 0⟩ .int _ _ rfl rfl).1 hw).2.2.2, hwrite _ _ _ _ _ _ hw⟩
  exact hunion (alone "x" (.box .int)) (alone "y" (.shadow (.box .int))) _ _ rfl

end Ownership
