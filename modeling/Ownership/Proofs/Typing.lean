import Ownership.Checker.Rules

/-!
# What the checker has found

The checker is a function, and a term that it accepts has passed the tests of its
rule. For each rule, what is known of a term that has been typed by it
(`Checker.apply_letMut` and so on), of a place that may be read or borrowed
(`Checker.read_ok`, `Checker.borrow_ok`), and of one that has a type (`typeUpTo_ok`).
-/

namespace Ownership

variable {α : Type} {c : Checker} {Γ Γ' : Env} {l inner : Lifetime} {t : Term} {ts : List Term}
variable {T : Ty} {sp : Span} {p : Place} {P P' : Parked} {x : String}

theorem blame_ok {e : Except Violation α} {a : α} : blame sp e = .ok a ↔ e = .ok a := by
  cases e <;> simp [blame]

theorem blame_error {e : Except Violation α} {d : CheckError} :
    blame sp e = .error d ↔ ∃ v, e = .error v ∧ d = ⟨v, sp⟩ := by
  cases e <;> simp [blame, eq_comm]

theorem declared_ok {s : Slot} : Γ.declared p = .ok s ↔ Γ.get? p.name = some s := by
  rw [Env.declared]
  cases Γ.get? p.name <;> simp

theorem require_ok {write : Bool} {gone : Violation} :
    require Γ p write gone = .ok () ↔ availability Γ p write = .available := by
  rw [require]
  cases availability Γ p write <;> simp

/-- What can be read is whole, or lies behind a borrow. -/
theorem availability_false {s : Slot} (hs : Γ.get? p.name = some s)
    (h : availability Γ p false = .available) :
    (∃ u, s.ty.follow p.path = .reached u ∧ u.defined = true) ∨
      ∃ m ps rest, s.ty.follow p.path = .crossed m ps rest := by
  rw [availability, hs] at h
  cases hf : s.ty.follow p.path with
  | reached u =>
    simp only [hf, Bool.false_or] at h
    split at h
    · rename_i hu
      exact .inl ⟨u, rfl, hu⟩
    · cases h
  | crossed m ps rest => exact .inr ⟨m, ps, rest, rfl⟩
  | shadowed => simp [hf] at h
  | notReference => simp [hf] at h
  | misfit => simp [hf] at h

/-- What a place that has a type comes to: a part of its variable, or all that lies behind a
borrow. -/
theorem typeUpTo_ok {n : Nat} (h : typeUpTo Γ (n + 1) p = .ok T) :
    ∃ s, Γ.get? p.name = some s ∧ (s.ty.follow p.path = .reached T ∨
      ∃ m ps rest, s.ty.follow p.path = .crossed m ps rest ∧
        unionOver (typeUpTo Γ n) none (ps.toList.map (·.extend rest)) = .ok T) := by
  rw [typeUpTo, Traced.bind_eq_ok] at h
  obtain ⟨s, hs, h⟩ := h
  refine ⟨s, declared_ok.1 hs, ?_⟩
  cases hf : s.ty.follow p.path with
  | reached u =>
    rw [hf] at h
    cases h
    exact .inl rfl
  | crossed m ps rest =>
    rw [hf] at h
    exact .inr ⟨m, ps, rest, rfl, h⟩
  | shadowed => simp [hf] at h
  | notReference => simp [hf] at h
  | misfit => simp [hf] at h

theorem typeUpTo_of_reached {s : Slot} {u : Ty} {n : Nat} (hs : Γ.get? p.name = some s)
    (hf : s.ty.follow p.path = .reached u) : typeUpTo Γ (n + 1) p = .ok u := by
  rw [typeUpTo, declared_ok.2 hs, Traced.ok_bind, hf]

theorem typeUpTo_of_crossed {s : Slot} {m : Bool} {ps : PlaceSet} {rest : List Selector} {n : Nat}
    (hs : Γ.get? p.name = some s) (hf : s.ty.follow p.path = .crossed m ps rest) :
    typeUpTo Γ (n + 1) p = unionOver (typeUpTo Γ n) none (ps.toList.map (·.extend rest)) := by
  rw [typeUpTo, declared_ok.2 hs, Traced.ok_bind, hf]

/-- What is reached has the type that is found there. -/
theorem typeOf_reached {s : Slot} {u : Ty} (hs : Γ.get? p.name = some s)
    (hf : s.ty.follow p.path = .reached u) (ht : typeOf Γ p = .ok T) : T = u := by
  rw [typeOf] at ht
  generalize crossings _ _ p = n at ht
  cases n with
  | zero => cases ht
  | succ n =>
    rw [typeUpTo_of_reached hs hf] at ht
    cases ht
    rfl

namespace Checker

attribute [local simp] apply sequence park

/-- **A place has been read**, by a copy or by a move. -/
theorem read_ok {k : AccessKind} (h : c.read Γ k p = .ok (Γ', T)) :
    ∃ s, Γ.get? p.name = some s ∧ availability Γ p false = .available ∧ typeOf Γ p = .ok T ∧
      ((c.copies k p T = .ok true ∧ Γ' = Γ) ∨
        (c.copies k p T = .ok false ∧ Γ.writeProhibited p = false ∧ ∃ u,
          s.ty.follow p.path = .reached u ∧
          Γ' = Γ.insert p.name ⟨s.ty.replaceAt p.path (.shadow u), s.lifetime⟩)) := by
  simp only [read, Traced.bind_eq_ok] at h
  obtain ⟨s, hs, ⟨⟩, hr, U, hU, b, hb, h⟩ := h
  refine ⟨s, declared_ok.1 hs, require_ok.1 hr, ?_⟩
  cases b with
  | true =>
    simp only [if_true] at h
    split at h
    · cases h
    · cases h
      exact ⟨hU, .inl ⟨hb, rfl⟩⟩
  | false =>
    simp only [Bool.false_eq_true, if_false, Traced.bind_eq_ok] at h
    obtain ⟨⟨⟩, -, h⟩ := h
    cases hw : Γ.writeProhibited p with
    | true =>
      rw [hw] at h
      cases h
    | false =>
      simp only [hw, Bool.false_eq_true, if_false, Traced.bind_eq_ok] at h
      obtain ⟨struck, hst, e⟩ := h
      cases e
      refine ⟨hU, .inr ⟨hb, rfl, ?_⟩⟩
      rw [strike] at hst
      cases hf : s.ty.follow p.path with
      | reached u =>
        simp only [hf, Except.ok.injEq] at hst
        exact ⟨u, rfl, by rw [hst]⟩
      | crossed m ps rest =>
        simp only [hf] at hst
        split at hst <;> cases hst
      | shadowed => simp [hf] at hst
      | notReference => simp [hf] at hst
      | misfit => simp [hf] at hst

/-- **A place has been borrowed.** -/
theorem borrow_ok {m : Bool} (h : borrow Γ m p = .ok T) :
    ∃ s, Γ.get? p.name = some s ∧ availability Γ p false = .available ∧
      (m = true → Γ.writeProhibited p = false) ∧ (m = false → Γ.readProhibited p = false) ∧
      T = .borrowOf m p := by
  simp only [borrow, Traced.bind_eq_ok] at h
  obtain ⟨s, hs, ⟨⟩, hr, h⟩ := h
  refine ⟨s, declared_ok.1 hs, require_ok.1 hr, ?_⟩
  cases m
  · simp only [Bool.false_eq_true, if_false] at h
    split at h
    · cases h
    · rename_i hp
      cases h
      exact ⟨nofun, fun _ => Bool.eq_false_iff.2 hp, rfl⟩
  · simp only [if_true, Traced.bind_eq_ok] at h
    obtain ⟨⟨⟩, -, h⟩ := h
    split at h
    · cases h
    · rename_i hp
      cases h
      exact ⟨fun _ => Bool.eq_false_iff.2 hp, nofun, rfl⟩

/-- **A place has been written.** -/
theorem assign_ok (h : c.assign Γ p T = .ok Γ') :
    Γ.writeProhibited p = false ∧ T.prohibitsWriting p = false ∧
      write c.variance Γ p T true = .ok Γ' := by
  simp only [assign, Traced.bind_eq_ok] at h
  obtain ⟨⟨⟩, -, h⟩ := h
  split at h
  · cases h
  · rename_i hw
    simp only [Bool.or_eq_true, not_or, Bool.not_eq_true] at hw
    exact ⟨hw.1, hw.2, h⟩

theorem expect_ok {Γ₁ Γ₂ : Env} {T₁ T₂ : Ty} (h : c.expect Γ₁ T₁ T₂ Γ₂ = .ok ()) :
    compatible c.variance Γ₁ T₁ T₂ Γ₂ = .ok true := by
  simp only [expect, Traced.bind_eq_ok] at h
  obtain ⟨b, hb, h⟩ := h
  cases b with
  | true => exact hb
  | false => cases h

/-- **The arms have been merged**, so they agree on the variables and have types of one shape. -/
theorem merge_ok {onTrue onFalse : Env × Ty} (h : c.merge onTrue onFalse = .ok (Γ', T)) :
    c.expect onTrue.1 onTrue.2 onFalse.2 onFalse.1 = .ok () ∧
      join c.variance onTrue.1 onFalse.1 = .ok Γ' ∧ onTrue.2.union onFalse.2 = some T := by
  simp only [merge, Traced.bind_eq_ok] at h
  obtain ⟨⟨⟩, he, J, hj, h⟩ := h
  cases hu : onTrue.2.union onFalse.2 with
  | none =>
    rw [hu] at h
    cases h
  | some t =>
    rw [hu] at h
    cases h
    exact ⟨he, hj, rfl⟩

/-! ### Terms -/

theorem apply_value {v : Value} (h : (c.apply Γ l (.value sp v)).result = .ok (Γ', T)) :
    (∃ n, v = .int n) ∧ Γ' = Γ ∧ T = .int := by
  cases v with
  | int n =>
    simp only [apply, offer_none, Traced.result_noteSuccess, Traced.result_pure, Except.ok.injEq,
      Prod.mk.injEq] at h
    exact ⟨⟨n, rfl⟩, h.1.symm, h.2.symm⟩
  | _ => simp at h

theorem apply_access {k : AccessKind} (h : (c.apply Γ l (.access sp k p)).result = .ok (Γ', T)) :
    c.read Γ k p = .ok (Γ', T) := by
  simp only [apply, offer_none, Traced.result_noteSuccess, Traced.result_lift, blame_ok] at h
  exact h

theorem apply_borrow {m : Bool} (h : (c.apply Γ l (.borrow sp m p)).result = .ok (Γ', T)) :
    Γ' = Γ ∧ borrow Γ m p = .ok T := by
  simp only [apply, offer_none, Traced.result_noteSuccess, Traced.result_bind, Traced.result_lift,
    Traced.bind_eq_ok, blame_ok] at h
  obtain ⟨U, hU, e⟩ := h
  cases e
  exact ⟨rfl, hU⟩

theorem apply_box (h : (c.apply Γ l (.box sp t)).result = .ok (Γ', T)) :
    ∃ U, (c.apply Γ l t).result = .ok (Γ', U) ∧ T = .box U := by
  simp only [apply, offer_none, Traced.result_noteSuccess, Traced.result_bind,
    Traced.bind_eq_ok] at h
  obtain ⟨⟨Γ₁, U⟩, h, e⟩ := h
  cases e
  exact ⟨U, h, rfl⟩

theorem apply_letMut {xs : Span} (h : (c.apply Γ l (.letMut sp x xs t)).result = .ok (Γ', T)) :
    Γ.contains x = false ∧ ∃ Γ₁ U, (c.apply Γ l t).result = .ok (Γ₁, U) ∧
      Γ' = Γ₁.insert x ⟨U, l⟩ ∧ T = .unit := by
  simp only [apply, offer_none, Traced.result_noteSuccess] at h
  cases hx : Γ.contains x with
  | true =>
    rw [hx] at h
    cases h
  | false =>
    rw [hx] at h
    simp only [Bool.false_eq_true, if_false, Traced.result_bind, Traced.bind_eq_ok] at h
    obtain ⟨⟨Γ₁, U⟩, h, e⟩ := h
    cases e
    exact ⟨rfl, Γ₁, U, h, rfl, rfl⟩

theorem apply_assign (h : (c.apply Γ l (.assign sp p t)).result = .ok (Γ', T)) :
    ∃ s Γ₁ U, Γ.get? p.name = some s ∧ (c.apply Γ l t).result = .ok (Γ₁, U) ∧
      c.assign Γ₁ p U = .ok Γ' ∧ T = .unit := by
  simp only [apply, offer_none, Traced.result_noteSuccess, Traced.result_bind, Traced.result_lift,
    Traced.bind_eq_ok, blame_ok] at h
  obtain ⟨s, hs, ⟨Γ₁, U⟩, h, Γ₂, ha, e⟩ := h
  cases e
  exact ⟨s, Γ₁, U, declared_ok.1 hs, h, ha, rfl⟩

theorem apply_block (h : (c.apply Γ l (.block sp inner ts)).result = .ok (Γ', T)) :
    ∃ Γ₁, (c.sequence Γ inner .unit ts).result = .ok (Γ₁, T) ∧ Γ₁.within T l = true ∧
      Γ' = Γ₁.dropLifetime inner := by
  simp only [apply, offer_none, Traced.result_noteSuccess, Traced.result_bind,
    Traced.bind_eq_ok] at h
  obtain ⟨⟨Γ₁, U⟩, h, h'⟩ := h
  cases hw : Γ₁.within U l with
  | false =>
    simp only [hw] at h'
    cases h'
  | true =>
    simp only [hw] at h'
    cases h'
    exact ⟨Γ₁, h, hw, rfl⟩

theorem sequence_nil (h : (c.sequence Γ l T []).result = .ok (Γ', U)) : Γ' = Γ ∧ U = T := by
  simp only [sequence, Traced.result_pure, Except.ok.injEq, Prod.mk.injEq] at h
  exact ⟨h.1.symm, h.2.symm⟩

theorem sequence_cons {U : Ty} (h : (c.sequence Γ l T (t :: ts)).result = .ok (Γ', U)) :
    ∃ Γ₁ T₁, (c.apply Γ l t).result = .ok (Γ₁, T₁) ∧
      (c.sequence Γ₁ l T₁ ts).result = .ok (Γ', U) := by
  simp only [sequence, Traced.result_bind, Traced.bind_eq_ok] at h
  obtain ⟨⟨Γ₁, T₁⟩, h, h'⟩ := h
  exact ⟨Γ₁, T₁, h, h'⟩

theorem park_nil (h : (c.park l P []).result = .ok P') : P' = P := by
  simp only [park, Traced.result_pure, Except.ok.injEq] at h
  exact h.symm

theorem park_cons (h : (c.park l P (t :: ts)).result = .ok P') :
    ∃ judged, (c.apply P.env l t).result = .ok judged ∧
      (c.park l (Parked.park l P.names judged) ts).result = .ok P' := by
  simp only [park, Traced.result_bind, Traced.bind_eq_ok] at h
  exact h

theorem apply_tuple {o : Nat} (ho : formOf? c.extensions o = some .tuple)
    (h : (c.apply Γ l (.ext sp o ts)).result = .ok (Γ', T)) :
    ∃ P, (c.park l ⟨Γ, []⟩ ts).result = .ok P ∧ Γ' = P.release.1 ∧ T = .compound P.release.2 := by
  rw [apply_form] at h
  simp only [ho, Traced.result_noteSuccess, Traced.result_bind, Traced.bind_eq_ok] at h
  obtain ⟨P, h, e⟩ := h
  cases e
  exact ⟨P, h, rfl, rfl⟩

/-- The operands of a conditional are typed one after the other, and each of the arms after them. -/
theorem apply_conditional {o : Nat} {equal : Bool}
    (ho : formOf? c.extensions o = some (.conditional equal)) {lhs rhs onTrue onFalse : Term}
    (h : (c.apply Γ l (.ext sp o [lhs, rhs, onTrue, onFalse])).result = .ok (Γ', T)) :
    ∃ left right Γ₁ ts tt ft, (c.apply Γ l lhs).result = .ok left ∧
      (c.apply (Parked.park l [] left).env l rhs).result = .ok right ∧
      (Γ₁, ts) = (Parked.park l (Parked.park l [] left).names right).release ∧
      c.comparable Γ₁ ts = .ok () ∧
      (c.apply Γ₁ l onTrue).result = .ok tt ∧ (c.apply Γ₁ l onFalse).result = .ok ft ∧
      c.merge tt ft = .ok (Γ', T) := by
  rw [apply_form] at h
  simp only [ho, conditional, Traced.result_noteSuccess, Traced.result_bind, Traced.result_lift,
    Traced.bind_eq_ok, blame_ok] at h
  obtain ⟨left, hl, right, hr, ⟨⟩, hc, tt, ht, ft, hf, hm⟩ := h
  exact ⟨left, right, _, _, tt, ft, hl, hr, rfl, hc, ht, hf, hm⟩

/-- Terms of other forms are refused. -/
theorem apply_ext {o : Nat} (h : (c.apply Γ l (.ext sp o ts)).result = .ok (Γ', T)) :
    formOf? c.extensions o = some .tuple ∨ ∃ equal lhs rhs onTrue onFalse,
      formOf? c.extensions o = some (.conditional equal) ∧ ts = [lhs, rhs, onTrue, onFalse] := by
  rw [apply_form, Traced.result_noteSuccess] at h
  split at h
  · rename_i ho
    exact .inl ho
  · rename_i ho
    -- only four operands make a conditional
    unfold conditional at h
    split at h
    · exact .inr ⟨_, _, _, _, _, ho, rfl⟩
    · cases h
  · cases h

end Checker

end Ownership
