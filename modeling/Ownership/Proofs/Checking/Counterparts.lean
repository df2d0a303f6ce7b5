import Ownership.Proofs.Checking.Simulations
import Ownership.Proofs.Checking.Temporaries

/-!
# What the second checker visits

A simulation carries acceptance from the first checker to the second one. Each of them has one
result for a term, so where the first one accepts they go through the same parts: whatever the
second checker visits is the counterpart of what the first one does.

* `Simulation.visits`: **all that the second checker visits has been visited by the first one.**
-/

namespace Ownership

open Relation

variable {c d : Checker} {f : String → String} {ok : Site → Prop} {R : Pairing}
variable {Γ Γ₁ Δ Δ₁ : Env} {l inner : Lifetime} {sp : Span} {o : Nat} {e : Bool} {T U : Ty}
variable {t lhs rhs onTrue onFalse : Term} {ss ts us : List Term} {P Q : Parked} {a a' b b' : Site}
variable {found found' : Env × List Ty}

/-- **The second site is where the second checker finds the term of the first one.** -/
structure Counterpart (f : String → String) (R : Pairing) (b b' : Site) : Prop where
  env : R b.env .unit b'.env .unit
  lifetime : b'.lifetime = b.lifetime
  term : b'.term = b.term.rename f

/-! ### Renamed terms -/

namespace Term

variable {r : Term} {rs qs : List Term}

/-- A term in a renamed list is a renamed term. -/
theorem eq_append_of_rename (h : ss ++ r :: rs = ts.map (·.rename f)) :
    ∃ qs t us, ts = qs ++ t :: us ∧ ss = qs.map (·.rename f) ∧ r = t.rename f := by
  obtain ⟨qs, vs, rfl, rfl, hvs⟩ := List.map_eq_append_iff.1 h.symm
  obtain ⟨t, us, rfl, rfl, rfl⟩ := List.map_eq_cons_iff.1 hvs
  exact ⟨qs, t, us, rfl, rfl, rfl⟩

theorem eq_block_of_rename (h : .block sp inner ss = t.rename f) :
    ∃ ts, t = .block sp inner ts ∧ ss = ts.map (·.rename f) := by
  cases t with
  | block _ _ ts =>
    rw [rename_block] at h
    cases h
    exact ⟨ts, rfl, rfl⟩
  | _ => cases h

theorem eq_ext_of_rename (h : .ext sp o ss = t.rename f) :
    ∃ ts, t = .ext sp o ts ∧ ss = ts.map (·.rename f) := by
  cases t with
  | ext _ _ ts =>
    rw [rename_ext] at h
    cases h
    exact ⟨ts, rfl, rfl⟩
  | _ => cases h

theorem eq_conditional_of_rename {q₁ q₂ q₃ q₄ : Term}
    (h : .ext sp o [q₁, q₂, q₃, q₄] = t.rename f) :
    ∃ lhs rhs onTrue onFalse, t = .ext sp o [lhs, rhs, onTrue, onFalse] ∧ q₁ = lhs.rename f ∧
      q₂ = rhs.rename f ∧ q₃ = onTrue.rename f ∧ q₄ = onFalse.rename f := by
  obtain ⟨ts, rfl, h₀⟩ := eq_ext_of_rename h
  obtain ⟨lhs, ts, rfl, rfl, h₁⟩ := List.map_eq_cons_iff.1 h₀.symm
  obtain ⟨rhs, ts, rfl, rfl, h₂⟩ := List.map_eq_cons_iff.1 h₁
  obtain ⟨onTrue, ts, rfl, rfl, h₃⟩ := List.map_eq_cons_iff.1 h₂
  obtain ⟨onFalse, ts, rfl, rfl, h₄⟩ := List.map_eq_cons_iff.1 h₃
  cases List.map_eq_nil_iff.1 h₄
  exact ⟨lhs, rhs, onTrue, onFalse, rfl, rfl, rfl, rfl, rfl⟩

end Term

namespace Simulation

/-! ### Results -/

/-- The results that both checkers have for a term are related. -/
theorem results (sim : Simulation c d f ok R) (h : R Γ .unit Δ .unit)
    (hok : ∀ b, c.Visits ⟨Γ, l, t⟩ b → ok b) (hc : (c.apply Γ l t).result = .ok (Γ₁, T))
    (hd : (d.apply Δ l (t.rename f)).result = .ok (Δ₁, U)) : R Γ₁ T Δ₁ U := by
  obtain ⟨Δ', U', h', hR⟩ := sim.apply t h hok hc
  cases hd.symm.trans h'
  exact hR

theorem results_operands (sim : Simulation c d f ok R) (h : R Γ .unit Δ .unit)
    (hok : ∀ b, c.Visits ⟨Γ, l, .ext sp o [lhs, rhs, onTrue, onFalse]⟩ b → ok b)
    (hform : formOf? c.extensions o = some (.conditional e)) (hc : c.Operands Γ l lhs rhs found)
    (hd : d.Operands Δ l (lhs.rename f) (rhs.rename f) found') :
    R found.1 (.compound found.2) found'.1 (.compound found'.2) := by
  obtain ⟨found'', ⟨left, right, hl, hr, rfl⟩, hR⟩ :=
    sim.operands (sim.apply lhs) (sim.apply rhs) h hok hform hc
  obtain ⟨left', right', hl', hr', rfl⟩ := hd
  cases hl.symm.trans hl'
  cases hr.symm.trans hr'
  exact hR

theorem results_sequence (sim : Simulation c d f ok R) (h : R Γ .unit Δ .unit)
    (hok : ∀ b, c.Visits ⟨Γ, l, .block sp inner (ss ++ us)⟩ b → ok b)
    (hc : (c.sequence Γ inner .unit ss).result = .ok (Γ₁, T))
    (hd : (d.sequence Δ inner .unit (ss.map (·.rename f))).result = .ok (Δ₁, U)) :
    R Γ₁ T Δ₁ U := by
  obtain ⟨Δ', U', h', hR⟩ := sim.sequence (fun t _ => sim.apply t) h
    (fun ts t vs Γ₂ T₂ e h₂ b hb => by
      subst e
      rw [List.append_assoc, List.cons_append] at hok
      exact hok b (.head (.statement h₂) hb)) hc
  cases hd.symm.trans h'
  exact hR

theorem results_park (sim : Simulation c d f ok R) (h : R Γ .unit Δ .unit)
    (hok : ∀ b, c.Visits ⟨Γ, l, .ext sp o (ss ++ us)⟩ b → ok b)
    (hform : formOf? c.extensions o = some .tuple) (hc : (c.park l ⟨Γ, []⟩ ss).result = .ok P)
    (hd : (d.park l ⟨Δ, []⟩ (ss.map (·.rename f))).result = .ok Q) :
    R P.env .unit Q.env .unit := by
  obtain ⟨Q', h', hPQ⟩ := sim.park (fun t _ => sim.apply t) (alongside h)
    (fun ts t vs P₁ e h₁ b hb => by
      subst e
      rw [List.append_assoc, List.cons_append] at hok
      exact hok b (.head (.operand hform h₁) hb)) hc
  cases hd.symm.trans h'
  exact hPQ.env

/-! ### Parts -/

/-- **The parts of a counterpart are counterparts**, where the first checker accepts. -/
theorem calls (sim : Simulation c d f ok R) (hab : Counterpart f R a a')
    (hok : ∀ b, c.Visits a b → ok b) (ha : c.Accepts a) (h : d.Calls a' b') :
    ∃ b, c.Calls a b ∧ Counterpart f R b b' := by
  obtain ⟨Γ, l, t⟩ := a
  obtain ⟨henv, hlife, hterm⟩ := hab
  obtain ⟨⟨Γ', T⟩, hr⟩ := ha
  cases h with
  | init hx =>
    cases t <;> cases hterm
    cases hlife
    exact ⟨_, .init (by rwa [← sim.contains (hok _ .refl) List.mem_cons_self henv]), henv, rfl, rfl⟩
  | source hs =>
    cases t <;> cases hterm
    cases hlife
    obtain ⟨s, -, -, hs, -⟩ := Checker.apply_assign hr
    exact ⟨_, .source (declared_ok.2 hs), henv, rfl, rfl⟩
  | content =>
    cases t <;> cases hterm
    cases hlife
    exact ⟨_, .content, henv, rfl, rfl⟩
  | statement hs =>
    cases hlife
    obtain ⟨ts, rfl, hts⟩ := Term.eq_block_of_rename hterm
    obtain ⟨qs, t, us, rfl, rfl, rfl⟩ := Term.eq_append_of_rename hts
    obtain ⟨Γ₂, hseq, -⟩ := Checker.apply_block hr
    obtain ⟨Γ₁, T₁, h₁⟩ := Checker.sequence_prefix hseq
    exact ⟨_, .statement h₁, sim.forget (sim.results_sequence henv hok h₁ hs), rfl, rfl⟩
  | operand hform hs =>
    cases hlife
    obtain ⟨ts, rfl, hts⟩ := Term.eq_ext_of_rename hterm
    obtain ⟨qs, t, us, rfl, rfl, rfl⟩ := Term.eq_append_of_rename hts
    rw [sim.forms] at hform
    obtain ⟨Q, hpark, -⟩ := Checker.apply_tuple hform hr
    obtain ⟨P, h₁, -⟩ := Checker.park_prefix hpark
    exact ⟨_, .operand hform h₁, sim.results_park henv hok hform h₁ hs, rfl, rfl⟩
  | left hform =>
    cases hlife
    obtain ⟨lhs, rhs, onTrue, onFalse, rfl, rfl, rfl, rfl, rfl⟩ :=
      Term.eq_conditional_of_rename hterm
    exact ⟨_, .left (sim.forms ▸ hform), henv, rfl, rfl⟩
  | right hform hx =>
    cases hlife
    obtain ⟨lhs, rhs, onTrue, onFalse, rfl, rfl, rfl, rfl, rfl⟩ :=
      Term.eq_conditional_of_rename hterm
    rw [sim.forms] at hform
    obtain ⟨left, -, -, -, -, -, hl, -⟩ := Checker.apply_conditional hform hr
    have hR := sim.results henv (fun b hb => hok b (.head (.left hform) hb)) hl hx
    exact ⟨_, .right hform hl, (sim.park_alongside (alongside henv) hR).env, rfl, rfl⟩
  | onTrue hform hx hy hrel hc =>
    cases hlife
    obtain ⟨lhs, rhs, onTrue, onFalse, rfl, rfl, rfl, rfl, rfl⟩ :=
      Term.eq_conditional_of_rename hterm
    rw [sim.forms] at hform
    obtain ⟨left, right, Γ₁, Ts, -, -, hl, hr', hrel', hc', -⟩ := Checker.apply_conditional hform hr
    have hR := sim.results_operands henv hok hform ⟨left, right, hl, hr', hrel'⟩
      ⟨_, _, hx, hy, hrel⟩
    exact ⟨_, .onTrue hform hl hr' hrel' hc', sim.forget hR, rfl, rfl⟩
  | onFalse hform hx hy hrel hc ht =>
    cases hlife
    obtain ⟨lhs, rhs, onTrue, onFalse, rfl, rfl, rfl, rfl, rfl⟩ :=
      Term.eq_conditional_of_rename hterm
    rw [sim.forms] at hform
    obtain ⟨left, right, Γ₁, Ts, tt, -, hl, hr', hrel', hc', htt, -⟩ :=
      Checker.apply_conditional hform hr
    have hR := sim.results_operands henv hok hform ⟨left, right, hl, hr', hrel'⟩
      ⟨_, _, hx, hy, hrel⟩
    exact ⟨_, .onFalse hform hl hr' hrel' hc' htt, sim.forget hR, rfl, rfl⟩

/-- **All that the second checker visits has been visited by the first one.** -/
theorem visits (sim : Simulation c d f ok R) (hab : Counterpart f R a a')
    (hok : ∀ b, c.Visits a b → ok b) (ha : c.Accepts a) (h : d.Visits a' b') :
    ∃ b, c.Visits a b ∧ Counterpart f R b b' := by
  induction h with
  | refl => exact ⟨a, .refl, hab⟩
  | tail _ hstep ih =>
    obtain ⟨b, hb, hbb⟩ := ih
    obtain ⟨b₁, hcall, h₁⟩ :=
      sim.calls hbb (fun b₂ h₂ => hok b₂ (hb.trans h₂)) (hb.accepted ha) hstep
    exact ⟨b₁, hb.tail hcall, h₁⟩

end Simulation

end Ownership
