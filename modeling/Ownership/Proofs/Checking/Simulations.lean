import Ownership.Proofs.Checking.Accepting
import Ownership.Proofs.Checking.Renaming
import Ownership.Proofs.Checking.Sites

/-!
# Two checkers side by side

One checker goes through a term, and another one through the same term with its variables renamed.
What the one has found is related to what the other one has found. If every rule keeps it so
(`Simulation`), then whatever the first checker accepts is accepted by the second one. The induction
over terms is here, once for all relations; a relation owes one law for each rule.

* `Simulation.apply`: **a term that is accepted by the one checker is accepted by the other.**
-/

namespace Ownership

variable {c d : Checker} {Γ Γ₁ Γ' Δ Δ₁ : Env} {l : Lifetime} {t lhs rhs onTrue onFalse : Term}
variable {ts : List Term} {T U V : Ty} {P P' Q Q' : Parked} {sp : Span} {o : Nat}

/-- What has been found by two checkers: an environment and a type by each of them. -/
abbrev Pairing := Env → Ty → Env → Ty → Prop

/-- An operand may be parked under the name by the first checker. -/
def Pairing.Fresh (R : Pairing) (n : String) : Prop := ∃ Γ T Δ U, R Γ T Δ U ∧ n = Γ.freshName

theorem Pairing.Fresh.temporary {R : Pairing} {n : String} (h : R.Fresh n) :
    ∃ i, n = Env.temporary i := by
  obtain ⟨Γ, -, -, -, -, rfl⟩ := h
  exact (Env.freshName_spec Γ).1

namespace Checker

/-- **The operands of a conditional have been typed**, parked and given back. -/
def Operands (c : Checker) (Γ : Env) (l : Lifetime) (lhs rhs : Term) (found : Env × List Ty) :
    Prop :=
  ∃ left right, (c.apply Γ l lhs).result = .ok left ∧
    (c.apply (Parked.park l [] left).env l rhs).result = .ok right ∧
    found = (Parked.park l (Parked.park l [] left).names right).release

end Checker

/-- **Every rule keeps two checkers related** at sites that pass the tests `ok`, where the second
checker sees all variables renamed by `f`. -/
structure Simulation (c d : Checker) (f : String → String) (ok : Site → Prop) (R : Pairing) :
    Prop where
  forms : d.extensions = c.extensions
  forget : ∀ {Γ T Δ U}, R Γ T Δ U → R Γ .unit Δ .unit
  int : ∀ {Γ Δ}, R Γ .unit Δ .unit → R Γ .int Δ .int
  box : ∀ {Γ T Δ U}, R Γ T Δ U → R Γ (.box T) Δ (.box U)
  contains : ∀ {Γ Δ l t x}, ok ⟨Γ, l, t⟩ → x ∈ t.names → R Γ .unit Δ .unit →
    Δ.contains (f x) = Γ.contains x
  fresh : ∀ {Γ T Δ U}, R Γ T Δ U → Δ.freshName = f Γ.freshName
  read : ∀ {Γ Γ' Δ T l sp k p}, ok ⟨Γ, l, .access sp k p⟩ → R Γ .unit Δ .unit →
    c.read Γ k p = .ok (Γ', T) →
    ∃ Δ' U, d.read Δ k (p.rename f) = .ok (Δ', U) ∧ R Γ' T Δ' U
  borrow : ∀ {Γ Δ T l sp m p}, ok ⟨Γ, l, .borrow sp m p⟩ → R Γ .unit Δ .unit →
    Checker.borrow Γ m p = .ok T →
    ∃ U, Checker.borrow Δ m (p.rename f) = .ok U ∧ R Γ T Δ U
  bind : ∀ {Γ Γ₁ Δ₁ T U l sp x xs t}, ok ⟨Γ, l, .letMut sp x xs t⟩ → R Γ₁ T Δ₁ U →
    R (Γ₁.insert x ⟨T, l⟩) .unit (Δ₁.insert (f x) ⟨U, l⟩) .unit
  hold : ∀ {Γ T Δ U}, R Γ T Δ U → ∀ l,
    R (Γ.insert Γ.freshName ⟨T, l⟩) .unit (Δ.insert (f Γ.freshName) ⟨U, l⟩) .unit
  assign : ∀ {Γ Γ₁ Γ' Δ₁ T U l sp p t}, ok ⟨Γ, l, .assign sp p t⟩ →
    (c.apply Γ l t).result = .ok (Γ₁, T) → R Γ₁ T Δ₁ U → c.assign Γ₁ p T = .ok Γ' →
    ∃ Δ', d.assign Δ₁ (p.rename f) U = .ok Δ' ∧ R Γ' .unit Δ' .unit
  within : ∀ {Γ T Δ U l}, R Γ T Δ U → Γ.within T l = true → Δ.within U l = true
  leave : ∀ {Γ Γ₁ Δ₁ T U l sp inner ts}, ok ⟨Γ, l, .block sp inner ts⟩ → R Γ₁ T Δ₁ U →
    R (Γ₁.dropLifetime inner) T (Δ₁.dropLifetime inner) U
  release : ∀ {Γ Δ N}, R Γ .unit Δ .unit → (∀ n ∈ N, R.Fresh n) →
    R (Γ.eraseAll N) (.compound (N.filterMap fun n => (Γ.get? n).map (·.ty)))
      (Δ.eraseAll (N.map f)) (.compound ((N.map f).filterMap fun n => (Δ.get? n).map (·.ty)))
  comparable : ∀ {Γ Γ₁ Δ₁ l sp o e lhs rhs onTrue onFalse Ts Us},
    ok ⟨Γ, l, .ext sp o [lhs, rhs, onTrue, onFalse]⟩ →
    formOf? c.extensions o = some (.conditional e) → c.Operands Γ l lhs rhs (Γ₁, Ts) →
    R Γ₁ (.compound Ts) Δ₁ (.compound Us) → c.comparable Γ₁ Ts = .ok () →
    d.comparable Δ₁ Us = .ok ()
  merge : ∀ {Γ Γ₁ Γ' T l sp o e lhs rhs onTrue onFalse Ts left right Δl Ul Δr Ur},
    ok ⟨Γ, l, .ext sp o [lhs, rhs, onTrue, onFalse]⟩ →
    formOf? c.extensions o = some (.conditional e) → c.Operands Γ l lhs rhs (Γ₁, Ts) →
    (c.apply Γ₁ l onTrue).result = .ok left → (c.apply Γ₁ l onFalse).result = .ok right →
    R left.1 left.2 Δl Ul → R right.1 right.2 Δr Ur → c.merge left right = .ok (Γ', T) →
    ∃ Δ' U, d.merge (Δl, Ul) (Δr, Ur) = .ok (Δ', U) ∧ R Γ' T Δ' U

namespace Simulation

variable {f : String → String} {ok : Site → Prop} {R : Pairing}

/-! ### Operands -/

/-- **The same operands have been parked**, under names that were fresh. -/
structure Alongside (f : String → String) (R : Pairing) (P Q : Parked) : Prop where
  names : Q.names = P.names.map f
  env : R P.env .unit Q.env .unit
  fresh : ∀ n ∈ P.names, R.Fresh n

theorem alongside (h : R Γ .unit Δ .unit) : Alongside f R ⟨Γ, []⟩ ⟨Δ, []⟩ := ⟨rfl, h, nofun⟩

theorem park_alongside (sim : Simulation c d f ok R) (h : Alongside f R P Q) (hR : R Γ T Δ U) :
    Alongside f R (Parked.park l P.names (Γ, T)) (Parked.park l Q.names (Δ, U)) where
  names := by simp [Parked.park, h.names, sim.fresh hR]
  env := by
    rw [Parked.park, Parked.park, sim.fresh hR]
    exact sim.hold hR _
  fresh := by
    intro n hn
    rcases List.mem_append.1 hn with hn | hn
    · exact h.fresh n hn
    · exact ⟨Γ, T, Δ, U, hR, List.mem_singleton.1 hn⟩

theorem release_alongside (sim : Simulation c d f ok R) (h : Alongside f R P Q) :
    R P.release.1 (.compound P.release.2) Q.release.1 (.compound Q.release.2) := by
  rw [Parked.release, Parked.release, h.names]
  exact sim.release h.env h.fresh

/-! ### Terms -/

/-- The second checker accepts the term wherever the first one does. -/
def Follows (c d : Checker) (f : String → String) (ok : Site → Prop) (R : Pairing) (t : Term) :
    Prop :=
  ∀ {Γ Γ' Δ l T}, R Γ .unit Δ .unit → (∀ b, c.Visits ⟨Γ, l, t⟩ b → ok b) →
    (c.apply Γ l t).result = .ok (Γ', T) →
    ∃ Δ' U, (d.apply Δ l (t.rename f)).result = .ok (Δ', U) ∧ R Γ' T Δ' U

theorem sequence (sim : Simulation c d f ok R) (each : ∀ t ∈ ts, Follows c d f ok R t)
    (h : R Γ T Δ U)
    (hok : ∀ ss t us Γ₁ T₁, ts = ss ++ t :: us → (c.sequence Γ l T ss).result = .ok (Γ₁, T₁) →
      ∀ b, c.Visits ⟨Γ₁, l, t⟩ b → ok b)
    (hr : (c.sequence Γ l T ts).result = .ok (Γ', V)) :
    ∃ Δ' W, (d.sequence Δ l U (ts.map (·.rename f))).result = .ok (Δ', W) ∧ R Γ' V Δ' W := by
  induction ts generalizing Γ T Δ U with
  | nil =>
    obtain ⟨rfl, rfl⟩ := Checker.sequence_nil hr
    exact ⟨Δ, U, Checker.sequence_of_nil, h⟩
  | cons t ts ih =>
    obtain ⟨Γ₁, T₁, h₁, hr⟩ := Checker.sequence_cons hr
    obtain ⟨Δ₁, U₁, hΔ₁, hR₁⟩ := each t List.mem_cons_self (sim.forget h)
      (hok [] t ts Γ T rfl Checker.sequence_of_nil) h₁
    rw [List.map_cons, Checker.sequence_of_cons hΔ₁]
    exact ih (fun t ht => each t (List.mem_cons_of_mem _ ht)) hR₁
      (fun ss u us Γ₂ T₂ e h₂ => hok (t :: ss) u us Γ₂ T₂ (by rw [e]; rfl)
        (by rw [Checker.sequence_of_cons h₁, h₂])) hr

theorem park (sim : Simulation c d f ok R) (each : ∀ t ∈ ts, Follows c d f ok R t)
    (h : Alongside f R P Q)
    (hok : ∀ ss t us P₁, ts = ss ++ t :: us → (c.park l P ss).result = .ok P₁ →
      ∀ b, c.Visits ⟨P₁.env, l, t⟩ b → ok b)
    (hr : (c.park l P ts).result = .ok P') :
    ∃ Q', (d.park l Q (ts.map (·.rename f))).result = .ok Q' ∧ Alongside f R P' Q' := by
  induction ts generalizing P Q with
  | nil =>
    cases Checker.park_nil hr
    exact ⟨Q, Checker.park_of_nil, h⟩
  | cons t ts ih =>
    obtain ⟨⟨Γ₁, T₁⟩, h₁, hr⟩ := Checker.park_cons hr
    obtain ⟨Δ₁, U₁, hΔ₁, hR₁⟩ := each t List.mem_cons_self h.env
      (hok [] t ts P rfl Checker.park_of_nil) h₁
    rw [List.map_cons, Checker.park_of_cons hΔ₁]
    exact ih (fun t ht => each t (List.mem_cons_of_mem _ ht)) (sim.park_alongside h hR₁)
      (fun ss u us P₂ e h₂ => hok (t :: ss) u us P₂ (by rw [e]; rfl)
        (by rw [Checker.park_of_cons h₁, h₂])) hr

/-- Both checkers give the operands of a conditional back. -/
theorem operands {found : Env × List Ty} (sim : Simulation c d f ok R)
    (hl : Follows c d f ok R lhs) (hr : Follows c d f ok R rhs) (h : R Γ .unit Δ .unit)
    (hok : ∀ b, c.Visits ⟨Γ, l, .ext sp o [lhs, rhs, onTrue, onFalse]⟩ b → ok b) {e : Bool}
    (hform : formOf? c.extensions o = some (.conditional e)) (ho : c.Operands Γ l lhs rhs found) :
    ∃ found', d.Operands Δ l (lhs.rename f) (rhs.rename f) found' ∧
      R found.1 (.compound found.2) found'.1 (.compound found'.2) := by
  obtain ⟨⟨Γ₁, T₁⟩, ⟨Γ₂, T₂⟩, h₁, h₂, rfl⟩ := ho
  obtain ⟨Δ₁, U₁, hΔ₁, hR₁⟩ := hl h (fun b hb => hok b (.head (.left hform) hb)) h₁
  have hleft := sim.park_alongside (l := l) (alongside h) hR₁
  obtain ⟨Δ₂, U₂, hΔ₂, hR₂⟩ := hr hleft.env (fun b hb => hok b (.head (.right hform h₁) hb)) h₂
  exact ⟨_, ⟨_, _, hΔ₁, hΔ₂, rfl⟩, sim.release_alongside (sim.park_alongside hleft hR₂)⟩

theorem apply_conditional {e : Bool} (sim : Simulation c d f ok R)
    (hform : formOf? c.extensions o = some (.conditional e))
    (each : ∀ t ∈ [lhs, rhs, onTrue, onFalse], Follows c d f ok R t) :
    Follows c d f ok R (.ext sp o [lhs, rhs, onTrue, onFalse]) := by
  intro Γ Γ' Δ l T h hok hr
  obtain ⟨left, right, Γ₁, Ts, tt, ff, hl, hrhs, hrel, hcmp, htt, hff, hm⟩ :=
    Checker.apply_conditional hform hr
  have ho : c.Operands Γ l lhs rhs (Γ₁, Ts) := ⟨left, right, hl, hrhs, hrel⟩
  obtain ⟨⟨Δ₁, Us⟩, ⟨left', right', hl', hr', hrel'⟩, hR⟩ :=
    sim.operands (each lhs (by simp)) (each rhs (by simp)) h hok hform ho
  have hcmp' := sim.comparable (hok _ .refl) hform ho hR hcmp
  -- each of the arms is typed after the operands
  obtain ⟨Δt, Ut, hΔt, hRt⟩ := each onTrue (by simp) (sim.forget hR)
    (fun b hb => hok b (.head (.onTrue hform hl hrhs hrel hcmp) hb)) htt
  obtain ⟨Δf, Uf, hΔf, hRf⟩ := each onFalse (by simp) (sim.forget hR)
    (fun b hb => hok b (.head (.onFalse hform hl hrhs hrel hcmp htt) hb)) hff
  obtain ⟨Δ', U, hm', hR'⟩ := sim.merge (hok _ .refl) hform ho htt hff hRt hRf hm
  refine ⟨Δ', U, ?_, hR'⟩
  rw [Term.rename_ext]
  exact Checker.apply_of_conditional (sim.forms ▸ hform) hl' hr' hrel' hcmp' hΔt hΔf hm'

/-- **A term that is accepted by the one checker is accepted by the other.** -/
theorem apply (sim : Simulation c d f ok R) (t : Term) : Follows c d f ok R t := by
  induction t with
  | letMut s x xs t ih =>
    intro Γ Γ' Δ l T h hok hr
    obtain ⟨hx, Γ₁, T₁, h₁, rfl, rfl⟩ := Checker.apply_letMut hr
    obtain ⟨Δ₁, U₁, hΔ₁, hR₁⟩ := ih h (fun b hb => hok b (.head (.init hx) hb)) h₁
    have hx' : Δ.contains (f x) = false := by
      rw [sim.contains (hok _ .refl) List.mem_cons_self h, hx]
    exact ⟨_, _, Checker.apply_of_letMut hx' hΔ₁, sim.bind (hok _ .refl) hR₁⟩
  | assign s p t ih =>
    intro Γ Γ' Δ l T h hok hr
    obtain ⟨s', Γ₁, T₁, hs, h₁, ha, rfl⟩ := Checker.apply_assign hr
    obtain ⟨Δ₁, U₁, hΔ₁, hR₁⟩ := ih h
      (fun b hb => hok b (.head (.source (declared_ok.2 hs)) hb)) h₁
    have hdeclared : Δ.contains (f p.name) = true := by
      rw [sim.contains (hok _ .refl) List.mem_cons_self h, NameMap.contains, hs]
      rfl
    obtain ⟨s'', hs'⟩ := Option.isSome_iff_exists.1 hdeclared
    obtain ⟨Δ', ha', hR'⟩ := sim.assign (hok _ .refl) h₁ hR₁ ha
    exact ⟨Δ', _, Checker.apply_of_assign hs' hΔ₁ ha', hR'⟩
  | block s inner ts ih =>
    intro Γ Γ' Δ l T h hok hr
    obtain ⟨Γ₁, h₁, hw, rfl⟩ := Checker.apply_block hr
    obtain ⟨Δ₁, U₁, hΔ₁, hR₁⟩ := sim.sequence ih h
      (fun ss t us Γ₂ T₂ e h₂ b hb => hok b (by subst e; exact .head (.statement h₂) hb)) h₁
    rw [Term.rename_block]
    exact ⟨_, U₁, Checker.apply_of_block hΔ₁ (sim.within hR₁ hw), sim.leave (hok _ .refl) hR₁⟩
  | access s k p =>
    intro Γ Γ' Δ l T h hok hr
    obtain ⟨Δ', U, hr', hR⟩ := sim.read (hok _ .refl) h (Checker.apply_access hr)
    exact ⟨Δ', U, Checker.apply_of_access hr', hR⟩
  | borrow s m p =>
    intro Γ Γ' Δ l T h hok hr
    obtain ⟨rfl, hb⟩ := Checker.apply_borrow hr
    obtain ⟨U, hb', hR⟩ := sim.borrow (hok _ .refl) h hb
    exact ⟨Δ, U, Checker.apply_of_borrow hb', hR⟩
  | box s t ih =>
    intro Γ Γ' Δ l T h hok hr
    obtain ⟨T₁, h₁, rfl⟩ := Checker.apply_box hr
    obtain ⟨Δ', U, hΔ', hR⟩ := ih h (fun b hb => hok b (.head .content hb)) h₁
    exact ⟨Δ', _, Checker.apply_of_box hΔ', sim.box hR⟩
  | value s v =>
    intro Γ Γ' Δ l T h hok hr
    obtain ⟨⟨n, rfl⟩, rfl, rfl⟩ := Checker.apply_value hr
    exact ⟨Δ, _, Checker.apply_of_int, sim.int h⟩
  | ext s o ts ih =>
    intro Γ Γ' Δ l T h hok hr
    rcases Checker.apply_ext hr with hform | ⟨e, lhs, rhs, onTrue, onFalse, hform, rfl⟩
    · obtain ⟨P, hP, rfl, rfl⟩ := Checker.apply_tuple hform hr
      obtain ⟨Q, hQ, hPQ⟩ := sim.park ih (alongside h)
        (fun ss t us P₁ e h₁ b hb => hok b (by subst e; exact .head (.operand hform h₁) hb)) hP
      rw [Term.rename_ext]
      exact ⟨_, _, Checker.apply_of_tuple (sim.forms ▸ hform) hQ, sim.release_alongside hPQ⟩
    · exact sim.apply_conditional hform ih h hok hr

/-- **A program that is accepted by the one checker is accepted by the other.** -/
theorem checkProgram {root : Lifetime} {program : Term} (sim : Simulation c d f ok R)
    (h : R .empty .unit .empty .unit) (hok : ∀ b, c.Visits ⟨.empty, root, program⟩ b → ok b)
    (hr : (c.checkProgram root program).result = .ok T) :
    ∃ Γ Δ U, (d.checkProgram root (program.rename f)).result = .ok U ∧ R Γ T Δ U := by
  simp only [Checker.checkProgram, Traced.result_bind, Traced.bind_eq_ok] at hr ⊢
  obtain ⟨⟨Γ', T'⟩, hr, e⟩ := hr
  cases e
  obtain ⟨Δ', U, hΔ', hR⟩ := sim.apply program h hok hr
  exact ⟨Γ', Δ', U, ⟨(Δ', U), hΔ', rfl⟩, hR⟩

end Simulation

end Ownership
