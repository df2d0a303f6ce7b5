import Ownership.Proofs.Checking.Scopes
import Ownership.Term.Parts

/-!
# What a term leaves behind

A term is typed in an environment where everything is in scope, and leaves such an environment
behind. It adds no variables but those that it declares, and in a program that uses no extension its
type borrows from none of them. The names in the term are asked to be none that the checker may make
up for its operands (`Checker.Orderly`).

* `Checker.scoped_apply`: **a term that has been typed leaves a scoped environment behind.**
-/

namespace Ownership

variable {c : Checker} {Γ Γ₁ Γ' : Env} {l inner : Lifetime} {K N : List String} {T U : Ty}
variable {t : Term} {ts : List Term} {s s' : Slot} {m : Bool} {p q : Place} {x : String}
variable {sp xs : Span} {o : Nat} {P P' : Parked}

namespace Checker

/-- **What is asked of a term.** Its blocks are opened one inside the other, and no name in it is
one that the checker may make up. -/
structure Orderly (c : Checker) (l : Lifetime) (t : Term) : Prop where
  nested : t.Nested l
  named : c.extensions ≠ [] → ∀ x ∈ t.names, ∀ i, x ≠ Env.temporary i

namespace Orderly

theorem letMut (h : c.Orderly l (.letMut sp x xs t)) : c.Orderly l t :=
  ⟨h.nested, fun he y hy => h.named he y (List.mem_cons_of_mem _ hy)⟩

theorem assign (h : c.Orderly l (.assign sp p t)) : c.Orderly l t :=
  ⟨h.nested, fun he y hy => h.named he y (List.mem_cons_of_mem _ hy)⟩

theorem box (h : c.Orderly l (.box sp t)) : c.Orderly l t := ⟨h.nested, h.named⟩

theorem block (h : c.Orderly l (.block sp inner ts)) (ht : t ∈ ts) : c.Orderly inner t :=
  ⟨Term.allNested_iff.1 h.nested.2 t ht,
    fun he y hy => h.named he y (Term.mem_allNames.2 ⟨t, ht, hy⟩)⟩

theorem ext (h : c.Orderly l (.ext sp o ts)) (ht : t ∈ ts) : c.Orderly l t :=
  ⟨Term.allNested_iff.1 h.nested t ht,
    fun he y hy => h.named he y (Term.mem_allNames.2 ⟨t, ht, hy⟩)⟩

/-- No operand is parked under a name of the term. -/
theorem unparked (h : c.Orderly l t) (hK : c.extensions = [] → K = []) (hΓ : Γ.Scoped l K T)
    (hx : x ∈ t.names) : x ∉ K := by
  intro hk
  by_cases he : c.extensions = []
  · rw [hK he] at hk
    cases hk
  · obtain ⟨⟨i, hi⟩, -⟩ := hΓ.parked x hk
    exact h.named he x hx i hi

end Orderly

/-- **A term has been typed in a scoped environment.** In a program that uses no extension nothing
that is left of it borrows from variables that it has declared. -/
structure Leaves (c : Checker) (l : Lifetime) (K : List String) (t : Term) (Γ Γ' : Env) (T : Ty) :
    Prop where
  scope : Γ'.Scoped l K T
  goesOn : Env.Extends l K t.declares Γ Γ'
  core : c.extensions = [] → Γ.Borrows Γ' T

/-- Typing the term leaves a scoped environment. -/
def Keeps (c : Checker) (t : Term) : Prop :=
  ∀ {l K Γ Γ' T}, c.Orderly l t → (c.extensions = [] → K = []) → Γ.Scoped l K .unit →
    (c.apply Γ l t).result = .ok (Γ', T) → c.Leaves l K t Γ Γ' T

/-- The environment is left as it is. -/
theorem Leaves.stay (h : Γ.Scoped l K T) : c.Leaves l K t Γ Γ T where
  scope := h
  goesOn := (Env.Extends.refl Γ).mono nofun
  core := fun _ => h.borrows

theorem Leaves.of_access {kind : AccessKind} (hp : p.name ∉ K) (hΓ : Γ.Scoped l K .unit)
    (h : c.read Γ kind p = .ok (Γ', T)) : c.Leaves l K (.access sp kind p) Γ Γ' T := by
  obtain ⟨hkept, hlend⟩ := lends_of_read h
  have hT : Γ.Scoped l K T := hΓ.result hlend
  obtain ⟨s, hs, -, -, ⟨-, rfl⟩ | ⟨-, -, u, hf, rfl⟩⟩ := read_ok h
  · exact .stay hT
  · have hU : ∀ m q, (s.ty.replaceAt p.path (.shadow u)).Lends m q → s.ty.Lends m q := by
      intro m q hq
      obtain ⟨s', hs', hq⟩ := hkept _ _ m q (NameMap.get?_insert_self ..) hq
      cases hs.symm.trans hs'
      exact hq
    refine ⟨hT.strike hs hp hU, (Env.Extends.refl Γ).insert hp (fun _ h => h)
      (fun s' hs' => by cases hs.symm.trans hs'; rfl) (fun hn => by rw [hs] at hn; cases hn),
      fun _ => ⟨fun x s' m q hx hq => ?_, fun m q hq => (hT.flight m q hq).2⟩⟩
    obtain ⟨s₁, hs₁, hq⟩ := hkept x s' m q hx hq
    obtain ⟨-, s₂, hs₂, -⟩ := hΓ.closed x s₁ m q hs₁ hq
    exact ⟨s₂, hs₂⟩

theorem Leaves.of_letMut (hk : x ∉ K) (h : c.Leaves l K t Γ Γ₁ U) (hx : Γ.get? x = none) :
    c.Leaves l K (.letMut sp x xs t) Γ (Γ₁.insert x ⟨U, l⟩) .unit where
  scope := h.scope.bind h.goesOn hx hk
  goesOn := h.goesOn.insert hk (fun _ => List.mem_cons_of_mem _)
    (fun s hs => (h.goesOn.fresh x s hs hx).2) fun _ => ⟨List.mem_cons_self, rfl⟩
  core := by
    intro hc
    obtain ⟨hΓ₁, hU⟩ := h.core hc
    refine ⟨fun y s m p hy hp => ?_, fun m p hp => absurd hp Ty.not_lends_unit⟩
    rcases NameMap.get?_insert_some hy with ⟨rfl, rfl⟩ | ⟨-, hy⟩
    · exact hU m p hp
    · exact hΓ₁ y s m p hy hp

theorem Leaves.of_assign (hk : p.name ∉ K) (h : c.Leaves l K t Γ Γ₁ U)
    (ha : c.assign Γ₁ p U = .ok Γ') : c.Leaves l K (.assign sp p t) Γ Γ' .unit := by
  obtain ⟨-, -, hw⟩ := assign_ok ha
  obtain ⟨hΓ', he⟩ := h.scope.write hk hw
  refine ⟨hΓ', ?_, fun hc => ⟨fun x s m q hs hq => ?_, fun m q hq => absurd hq Ty.not_lends_unit⟩⟩
  · have := h.goesOn.trans he
    rwa [List.append_nil] at this
  · obtain ⟨hΓ₁, hU⟩ := h.core hc
    rcases lends_of_write hw hs hq with ⟨s', hs', hq⟩ | hq
    · exact hΓ₁ x s' m q hs' hq
    · exact hU m q hq

/-- Statements are typed one after the other. -/
theorem scoped_sequence (each : ∀ t ∈ ts, c.Keeps t) (ho : ∀ t ∈ ts, c.Orderly l t)
    (hK : c.extensions = [] → K = []) (hΓ : Γ.Scoped l K T)
    (h : (c.sequence Γ l T ts).result = .ok (Γ', U)) :
    Γ'.Scoped l K U ∧ Env.Extends l K (Term.allDeclares ts) Γ Γ' := by
  induction ts generalizing Γ T with
  | nil =>
    obtain ⟨rfl, rfl⟩ := sequence_nil h
    exact ⟨hΓ, .refl _⟩
  | cons t ts ih =>
    obtain ⟨Γ₁, T₁, h₁, h⟩ := sequence_cons h
    have first := each t List.mem_cons_self (ho t List.mem_cons_self) hK hΓ.forget h₁
    obtain ⟨hΓ', he⟩ := ih (fun t ht => each t (List.mem_cons_of_mem _ ht))
      (fun t ht => ho t (List.mem_cons_of_mem _ ht)) first.scope h
    exact ⟨hΓ', first.goesOn.trans he⟩

theorem Leaves.of_block (each : ∀ t ∈ ts, c.Keeps t) (ho : c.Orderly l (.block sp inner ts))
    (hK : c.extensions = [] → K = []) (hΓ : Γ.Scoped l K .unit)
    (h : (c.apply Γ l (.block sp inner ts)).result = .ok (Γ', T)) :
    c.Leaves l K (.block sp inner ts) Γ Γ' T := by
  obtain ⟨Γ₁, h₁, hw, rfl⟩ := apply_block h
  have hi := ho.nested.1
  obtain ⟨hΓ₁, he⟩ := scoped_sequence each (fun t ht => ho.block ht) hK (hΓ.enter hi) h₁
  obtain ⟨hΓ', he'⟩ := hΓ.leave hi hΓ₁ he hw
  -- what is bound after the block was bound before it
  have bound : ∀ {q : Place}, (∃ s', (Γ₁.dropLifetime inner).get? q.name = some s') →
      ∃ s, Γ.get? q.name = some s := by
    rintro q ⟨s', hs'⟩
    cases hn : Γ.get? q.name with
    | none => cases (he'.fresh _ s' hs' hn).1
    | some s => exact ⟨s, rfl⟩
  exact ⟨hΓ', he', fun _ => ⟨fun x s m q hs hq => bound (hΓ'.borrows.1 x s m q hs hq),
    fun m q hq => bound (hΓ'.borrows.2 m q hq)⟩⟩

/-- Operands are typed one after the other. -/
theorem parks_of_park (each : ∀ t ∈ ts, c.Keeps t) (ho : ∀ t ∈ ts, c.Orderly l t)
    (hc : c.extensions ≠ []) (hP : Env.Parks l K N Γ P)
    (h : (c.park l P ts).result = .ok P') : Env.Parks l K (N ++ Term.allDeclares ts) Γ P' := by
  induction ts generalizing P N with
  | nil =>
    cases park_nil h
    rw [Term.allDeclares, List.append_nil]
    exact hP
  | cons t ts ih =>
    obtain ⟨⟨Γ₁, T₁⟩, h₁, h⟩ := park_cons h
    have first := each t List.mem_cons_self (ho t List.mem_cons_self) (fun he => absurd he hc)
      hP.scope h₁
    have hrest := ih (fun t ht => each t (List.mem_cons_of_mem _ ht))
      (fun t ht => ho t (List.mem_cons_of_mem _ ht)) (hP.park first.scope first.goesOn) h
    rwa [List.append_assoc] at hrest

theorem extensions_of_form {f : Form} (h : formOf? c.extensions o = some f) :
    c.extensions ≠ [] := by
  intro e
  rw [e] at h
  cases h

theorem Leaves.of_tuple (each : ∀ t ∈ ts, c.Keeps t) (ho : c.Orderly l (.ext sp o ts))
    (hΓ : Γ.Scoped l K .unit) (hform : formOf? c.extensions o = some .tuple)
    (h : (c.apply Γ l (.ext sp o ts)).result = .ok (Γ', T)) :
    c.Leaves l K (.ext sp o ts) Γ Γ' T := by
  have hc := extensions_of_form hform
  obtain ⟨P, hP, rfl, rfl⟩ := apply_tuple hform h
  have hparks := parks_of_park each (fun t ht => ho.ext ht) hc (.nil hΓ) hP
  obtain ⟨hΓ', he⟩ := hparks.release hΓ
  exact ⟨hΓ', he, fun hn => absurd hn hc⟩

theorem Leaves.of_conditional {e : Bool} {left right onTrue onFalse : Term}
    (each : ∀ t ∈ [left, right, onTrue, onFalse], c.Keeps t)
    (ho : c.Orderly l (.ext sp o [left, right, onTrue, onFalse])) (hΓ : Γ.Scoped l K .unit)
    (hform : formOf? c.extensions o = some (.conditional e))
    (h : (c.apply Γ l (.ext sp o [left, right, onTrue, onFalse])).result = .ok (Γ', T)) :
    c.Leaves l K (.ext sp o [left, right, onTrue, onFalse]) Γ Γ' T := by
  have hc := extensions_of_form hform
  obtain ⟨⟨Γl, Tl⟩, ⟨Γr, Tr⟩, Γ₁, us, ⟨Γt, Tt⟩, ⟨Γf, Tf⟩, hl, hr, hrel, -, ht, hf, hm⟩ :=
    apply_conditional hform h
  -- the two operands are parked, and then released
  have first := each left (by simp) (ho.ext (by simp)) (fun hn => absurd hn hc) hΓ hl
  have hscope : Γl.Scoped l (K ++ []) Tl := by
    rw [List.append_nil]
    exact first.scope
  have hgoesOn : Env.Extends l (K ++ []) left.declares Γ Γl := by
    rw [List.append_nil]
    exact first.goesOn
  have hpark₁ := (Env.Parks.nil hΓ).park hscope hgoesOn
  have second := each right (by simp) (ho.ext (by simp)) (fun hn => absurd hn hc) hpark₁.scope hr
  obtain ⟨hΓ₁, he₁⟩ := (hpark₁.park second.scope second.goesOn).release hΓ
  rw [← hrel] at hΓ₁ he₁
  -- each of the arms goes on from there
  have third := each onTrue (by simp) (ho.ext (by simp)) (fun hn => absurd hn hc) hΓ₁.forget ht
  have fourth := each onFalse (by simp) (ho.ext (by simp)) (fun hn => absurd hn hc) hΓ₁.forget hf
  obtain ⟨-, hj, hu⟩ := merge_ok hm
  obtain ⟨hΓ', he'⟩ := third.scope.merge fourth.scope third.goesOn fourth.goesOn hj hu
  refine ⟨hΓ', (he₁.trans he').mono fun x hx => ?_, fun hn => absurd hn hc⟩
  simp only [Term.declares, Term.allDeclares, List.nil_append, List.append_nil,
    List.mem_append] at hx ⊢
  tauto

/-- **A term that has been typed in a scoped environment leaves one behind**, and adds only the
variables that it declares. -/
theorem scoped_apply (t : Term) : c.Keeps t := by
  induction t with
  | value s v =>
    intro l K Γ Γ' T ho hK hΓ h
    obtain ⟨-, rfl, rfl⟩ := apply_value h
    exact .stay (hΓ.result fun m p hp => absurd hp Ty.not_lends_int)
  | access s k p =>
    intro l K Γ Γ' T ho hK hΓ h
    exact .of_access (ho.unparked hK hΓ (by simp [Term.names])) hΓ (apply_access h)
  | borrow s m p =>
    intro l K Γ Γ' T ho hK hΓ h
    obtain ⟨rfl, hb⟩ := apply_borrow h
    obtain ⟨s, hs, -, -, -, rfl⟩ := borrow_ok hb
    exact .stay (hΓ.borrow hs (ho.unparked hK hΓ (by simp [Term.names])))
  | box s t ih =>
    intro l K Γ Γ' T ho hK hΓ h
    obtain ⟨U, h₁, rfl⟩ := apply_box h
    have content := ih ho.box hK hΓ h₁
    have hlend : ∀ m p, (Ty.box U).Lends m p → U.Lends m p := fun m p => Ty.lends_box.1
    exact ⟨⟨content.scope.level, content.scope.closed,
      fun m p hp => content.scope.flight m p (hlend m p hp), content.scope.parked⟩, content.goesOn,
      fun hc => ⟨(content.core hc).1, fun m p hp => (content.core hc).2 m p (hlend m p hp)⟩⟩
  | letMut s x xs t ih =>
    intro l K Γ Γ' T ho hK hΓ h
    obtain ⟨hx, Γ₁, U, h₁, rfl, rfl⟩ := apply_letMut h
    exact .of_letMut (ho.unparked hK hΓ (by simp [Term.names])) (ih ho.letMut hK hΓ h₁)
      (NameMap.contains_eq_false_iff.1 hx)
  | assign s p t ih =>
    intro l K Γ Γ' T ho hK hΓ h
    obtain ⟨-, Γ₁, U, -, h₁, ha, rfl⟩ := apply_assign h
    exact .of_assign (ho.unparked hK hΓ (by simp [Term.names])) (ih ho.assign hK hΓ h₁) ha
  | block s inner ts ih =>
    intro l K Γ Γ' T ho hK hΓ h
    exact .of_block ih ho hK hΓ h
  | ext s o ts ih =>
    intro l K Γ Γ' T ho hK hΓ h
    rcases apply_ext h with hform | ⟨e, left, right, onTrue, onFalse, hform, rfl⟩
    · exact .of_tuple ih ho hΓ hform h
    · exact .of_conditional ih ho hΓ hform h

end Checker

end Ownership
