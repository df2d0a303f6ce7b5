import Ownership.Proofs.Checking.Sites

/-!
# Where errors come from

A term is refused because a premise of its rule fails (`Checker.Raises`), or because a part of it is
refused. So every error is raised by the rule of some term that is visited (`Checker.raised`).
-/

namespace Ownership

open Relation

namespace Checker

variable {c : Checker} {Γ : Env} {l inner : Lifetime} {t : Term} {ts : List Term} {T : Ty}
variable {sp xs : Span} {x : String} {p : Place} {o : Nat} {e : CheckError} {P : Parked}
variable {a b : Site}

/-- **A premise of the rule of the term fails**, after its parts have been accepted. -/
inductive Raises (c : Checker) : Site → CheckError → Prop where
  | bound {Γ : Env} {l : Lifetime} {sp xs : Span} {x : String} {t : Term} :
      Γ.contains x = true → Raises c ⟨Γ, l, .letMut sp x xs t⟩ ⟨.alreadyDeclared x, xs⟩
  | undeclared {Γ : Env} {l : Lifetime} {sp : Span} {p : Place} {t : Term} {v : Violation} :
      Γ.declared p = .error v → Raises c ⟨Γ, l, .assign sp p t⟩ ⟨v, sp⟩
  | assign {Γ Γ₁ : Env} {l : Lifetime} {sp : Span} {p : Place} {t : Term} {T : Ty} {s : Slot}
      {v : Violation} : Γ.declared p = .ok s → (c.apply Γ l t).result = .ok (Γ₁, T) →
      c.assign Γ₁ p T = .error v → Raises c ⟨Γ, l, .assign sp p t⟩ ⟨v, sp⟩
  | block {Γ Γ₁ : Env} {l inner : Lifetime} {sp : Span} {ts : List Term} {T : Ty} :
      (c.sequence Γ inner .unit ts).result = .ok (Γ₁, T) → Γ₁.within T l = false →
      Raises c ⟨Γ, l, .block sp inner ts⟩ ⟨.notWithin T, sp⟩
  | access {Γ : Env} {l : Lifetime} {sp : Span} {k : AccessKind} {p : Place} {v : Violation} :
      c.read Γ k p = .error v → Raises c ⟨Γ, l, .access sp k p⟩ ⟨v, sp⟩
  | borrow {Γ : Env} {l : Lifetime} {sp : Span} {m : Bool} {p : Place} {v : Violation} :
      Checker.borrow Γ m p = .error v → Raises c ⟨Γ, l, .borrow sp m p⟩ ⟨v, sp⟩
  | value {Γ : Env} {l : Lifetime} {sp : Span} {w : Value} : (∀ n, w ≠ .int n) →
      Raises c ⟨Γ, l, .value sp w⟩ ⟨.unsupportedTerm w.text, sp⟩
  | unknown {Γ : Env} {l : Lifetime} {sp : Span} {o : Nat} {ts : List Term} :
      formOf? c.extensions o ≠ some .tuple →
      Raises c ⟨Γ, l, .ext sp o ts⟩ ⟨.unknownTerm o, sp⟩
  | comparable {Γ Γ₁ : Env} {l : Lifetime} {sp : Span} {o : Nat} {q : Bool} {lhs rhs tt ff : Term}
      {x y : Env × Ty} {us : List Ty} {v : Violation} :
      formOf? c.extensions o = some (.conditional q) →
      (c.apply Γ l lhs).result = .ok x → (c.apply (Parked.park l [] x).env l rhs).result = .ok y →
      (Γ₁, us) = (Parked.park l (Parked.park l [] x).names y).release →
      c.comparable Γ₁ us = .error v → Raises c ⟨Γ, l, .ext sp o [lhs, rhs, tt, ff]⟩ ⟨v, sp⟩
  | merge {Γ Γ₁ : Env} {l : Lifetime} {sp : Span} {o : Nat} {q : Bool} {lhs rhs tt ff : Term}
      {x y z w : Env × Ty} {us : List Ty} {v : Violation} :
      formOf? c.extensions o = some (.conditional q) →
      (c.apply Γ l lhs).result = .ok x → (c.apply (Parked.park l [] x).env l rhs).result = .ok y →
      (Γ₁, us) = (Parked.park l (Parked.park l [] x).names y).release →
      (c.apply Γ₁ l tt).result = .ok z → (c.apply Γ₁ l ff).result = .ok w →
      c.merge z w = .error v → Raises c ⟨Γ, l, .ext sp o [lhs, rhs, tt, ff]⟩ ⟨v, sp⟩

/-- The part of the term is refused. -/
def Refused (c : Checker) (a : Site) (e : CheckError) : Prop :=
  (c.apply a.env a.lifetime a.term).result = .error e

/-- One of the statements is refused, after the ones before it have been accepted. -/
theorem sequence_error (h : (c.sequence Γ l T ts).result = .error e) :
    ∃ ss t us Γ₁ T₁, ts = ss ++ t :: us ∧ (c.sequence Γ l T ss).result = .ok (Γ₁, T₁) ∧
      c.Refused ⟨Γ₁, l, t⟩ e := by
  induction ts generalizing Γ T with
  | nil =>
    simp only [sequence, Traced.result_pure] at h
    cases h
  | cons t ts ih =>
    simp only [sequence, Traced.result_bind, Traced.bind_eq_error] at h
    rcases h with h | ⟨⟨Γ₁, T₁⟩, h₁, h⟩
    · exact ⟨[], t, ts, Γ, T, rfl, by simp only [sequence, Traced.result_pure], h⟩
    · obtain ⟨ss, u, us, Γ₂, T₂, rfl, h₂, hu⟩ := ih h
      exact ⟨t :: ss, u, us, Γ₂, T₂, rfl, by rw [sequence_of_cons h₁, h₂], hu⟩

/-- One of the operands is refused, after the ones before it have been parked. -/
theorem park_error (h : (c.park l P ts).result = .error e) :
    ∃ ss t us P₁, ts = ss ++ t :: us ∧ (c.park l P ss).result = .ok P₁ ∧
      c.Refused ⟨P₁.env, l, t⟩ e := by
  induction ts generalizing P with
  | nil =>
    simp only [park, Traced.result_pure] at h
    cases h
  | cons t ts ih =>
    simp only [park, Traced.result_bind, Traced.bind_eq_error] at h
    rcases h with h | ⟨x, h₁, h⟩
    · exact ⟨[], t, ts, P, rfl, by simp only [park, Traced.result_pure], h⟩
    · obtain ⟨ss, u, us, P₂, rfl, h₂, hu⟩ := ih h
      exact ⟨t :: ss, u, us, P₂, rfl, by rw [park_of_cons h₁, h₂], hu⟩

theorem raises_letMut (h : c.Refused ⟨Γ, l, .letMut sp x xs t⟩ e) :
    c.Raises ⟨Γ, l, .letMut sp x xs t⟩ e ∨
      ∃ b, c.Calls ⟨Γ, l, .letMut sp x xs t⟩ b ∧ c.Refused b e := by
  simp only [Refused, apply, offer_none, Traced.result_noteSuccess] at h
  cases hx : Γ.contains x with
  | true =>
    rw [hx] at h
    cases h
    exact .inl (.bound hx)
  | false =>
    rw [hx] at h
    simp only [Bool.false_eq_true, if_false, Traced.result_bind, Traced.bind_eq_error] at h
    rcases h with h | ⟨y, -, h⟩
    · exact .inr ⟨_, .init hx, h⟩
    · cases h

theorem raises_assign (h : c.Refused ⟨Γ, l, .assign sp p t⟩ e) :
    c.Raises ⟨Γ, l, .assign sp p t⟩ e ∨
      ∃ b, c.Calls ⟨Γ, l, .assign sp p t⟩ b ∧ c.Refused b e := by
  simp only [Refused, apply, offer_none, Traced.result_noteSuccess, Traced.result_bind,
    Traced.result_lift, Traced.bind_eq_error, blame_error, blame_ok] at h
  rcases h with ⟨v, hv, rfl⟩ | ⟨s, hs, h | ⟨⟨Γ₁, T⟩, h₁, ⟨v, hv, rfl⟩ | ⟨Γ₂, -, h⟩⟩⟩
  · exact .inl (.undeclared hv)
  · exact .inr ⟨_, .source hs, h⟩
  · exact .inl (.assign hs h₁ hv)
  · cases h

theorem raises_block (h : c.Refused ⟨Γ, l, .block sp inner ts⟩ e) :
    c.Raises ⟨Γ, l, .block sp inner ts⟩ e ∨
      ∃ b, c.Calls ⟨Γ, l, .block sp inner ts⟩ b ∧ c.Refused b e := by
  simp only [Refused, apply, offer_none, Traced.result_noteSuccess, Traced.result_bind,
    Traced.bind_eq_error] at h
  rcases h with h | ⟨⟨Γ₁, T⟩, h₁, h⟩
  · obtain ⟨ss, t, us, Γ₁, T₁, rfl, hs, ht⟩ := sequence_error h
    exact .inr ⟨_, .statement hs, ht⟩
  · cases hw : Γ₁.within T l with
    | true =>
      simp only [hw] at h
      cases h
    | false =>
      simp only [hw] at h
      cases h
      exact .inl (.block h₁ hw)

theorem raises_ext (h : c.Refused ⟨Γ, l, .ext sp o ts⟩ e) :
    c.Raises ⟨Γ, l, .ext sp o ts⟩ e ∨
      ∃ b, c.Calls ⟨Γ, l, .ext sp o ts⟩ b ∧ c.Refused b e := by
  simp only [Refused, apply_form, Traced.result_noteSuccess] at h
  split at h
  · rename_i hform
    simp only [Traced.result_bind, Traced.bind_eq_error] at h
    rcases h with h | ⟨P, -, h⟩
    · obtain ⟨ss, t, us, P₁, rfl, hs, ht⟩ := park_error h
      exact .inr ⟨_, .operand hform hs, ht⟩
    · cases h
  · rename_i hform
    unfold conditional at h
    split at h
    · simp only [Traced.result_bind, Traced.result_lift, Traced.bind_eq_error, blame_error,
        blame_ok] at h
      rcases h with h | ⟨x, hx, h | ⟨y, hy, ⟨v, hv, rfl⟩ | ⟨⟨⟩, hc, h⟩⟩⟩
      · exact .inr ⟨_, .left hform, h⟩
      · exact .inr ⟨_, .right hform hx, h⟩
      · exact .inl (.comparable hform hx hy rfl hv)
      · rcases h with h | ⟨z, hz, h | ⟨w, hw, v, hv, rfl⟩⟩
        · exact .inr ⟨_, .onTrue hform hx hy rfl hc, h⟩
        · exact .inr ⟨_, .onFalse hform hx hy rfl hc hz, h⟩
        · exact .inl (.merge hform hx hy rfl hz hw hv)
    · cases h
      exact .inl (.unknown (by simp [hform]))
  · rename_i hform
    cases h
    exact .inl (.unknown (by simp [hform]))

/-- **A term that is refused breaks its own rule, or a part of it is refused.** -/
theorem refused_cases (h : c.Refused a e) : c.Raises a e ∨ ∃ b, c.Calls a b ∧ c.Refused b e := by
  obtain ⟨Γ, l, t⟩ := a
  cases t with
  | letMut => exact raises_letMut h
  | assign => exact raises_assign h
  | block => exact raises_block h
  | ext => exact raises_ext h
  | access sp k p =>
    simp only [Refused, apply, offer_none, Traced.result_noteSuccess, Traced.result_lift,
      blame_error] at h
    obtain ⟨v, hv, rfl⟩ := h
    exact .inl (.access hv)
  | borrow sp m p =>
    simp only [Refused, apply, offer_none, Traced.result_noteSuccess, Traced.result_bind,
      Traced.result_lift, Traced.bind_eq_error, blame_error] at h
    rcases h with ⟨v, hv, rfl⟩ | ⟨T, -, h⟩
    · exact .inl (.borrow hv)
    · cases h
  | box sp t =>
    simp only [Refused, apply, offer_none, Traced.result_noteSuccess, Traced.result_bind,
      Traced.bind_eq_error] at h
    rcases h with h | ⟨y, -, h⟩
    · exact .inr ⟨_, .content, h⟩
    · cases h
  | value sp v =>
    cases v with
    | int n =>
      simp only [Refused, apply, offer_none, Traced.result_noteSuccess, Traced.result_pure] at h
      cases h
    | _ =>
      simp only [Refused, apply, offer_none, Traced.result_noteSuccess, Traced.result_throw] at h
      cases h
      exact .inl (.value nofun)

/-- A part of a term is smaller. -/
theorem Calls.sizeOf_lt (h : c.Calls a b) : sizeOf b.term < sizeOf a.term := by
  have operand : ∀ {sp : Span} {o : Nat} {t : Term} {ts : List Term}, t ∈ ts →
      sizeOf t < sizeOf (Term.ext sp o ts) := by
    intro sp o t ts ht
    have := List.sizeOf_lt_of_mem ht
    simp only [Term.ext.sizeOf_spec]
    omega
  cases h with
  | init => simp only [Term.letMut.sizeOf_spec]; omega
  | source => simp only [Term.assign.sizeOf_spec]; omega
  | content => simp only [Term.box.sizeOf_spec]; omega
  | @statement Γ Γ₁ l inner sp ss us t T hs =>
    have : sizeOf t < sizeOf (ss ++ t :: us) := List.sizeOf_lt_of_mem (by simp)
    simp only [Term.block.sizeOf_spec]
    omega
  | operand => exact operand (by simp)
  | left => exact operand (by simp)
  | right => exact operand (by simp)
  | onTrue => exact operand (by simp)
  | onFalse => exact operand (by simp)

/-- **Every error is raised by the rule of a term that is visited.** -/
theorem raised (h : c.Refused a e) : ∃ b, c.Visits a b ∧ c.Raises b e := by
  induction hn : sizeOf a.term using Nat.strongRecOn generalizing a with
  | _ n ih =>
    rcases refused_cases h with hr | ⟨b, hb, h⟩
    · exact ⟨a, .refl, hr⟩
    · obtain ⟨d, hd, hr⟩ := ih _ (hn ▸ hb.sizeOf_lt) h rfl
      exact ⟨d, .head hb hd, hr⟩

end Checker

end Ownership
