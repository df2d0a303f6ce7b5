import Ownership.Proofs.Checking.Clearer
import Ownership.Proofs.Checking.Reserved
import Ownership.Proofs.Checking.Simulations

/-!
# Copy inference accepts more

Two checkers go through a program side by side. One moves wherever the kind of an access is left
open, the other one copies there what may be copied. So less has been moved out for the latter
(`Env.Clearer`), and it passes all tests that the former passes. What is evaluated is whole, so both
find the same types, and what they park stays the same as long as no place of the program is in a
temporary (`Env.Reserved`).

* `Checker.read_copying`: **a read that succeeds does so with copy inference.**
* `Checker.accepts_copying`: **a program that is accepted is accepted with copy inference**, with
  the same type.
-/

namespace Ownership

variable {c : Checker} {Γ Γ₁ Γ₂ Γ' Δ Δ₁ Δ₂ Δ' : Env} {T T₁ T₂ U : Ty} {p : Place} {m : Bool}

namespace Env.Clearer

/-- Both environments park under the same name. -/
theorem freshName (h : Γ.Clearer Δ) : Γ.freshName = Δ.freshName :=
  freshName_congr fun _ => h.contains _

theorem borrow (h : Γ.Clearer Δ) (hb : Checker.borrow Δ m p = .ok T) :
    Checker.borrow Γ m p = .ok T := by
  obtain ⟨⟨s, hs⟩, ha, hw, hr, e⟩ := Checker.borrow_eq_ok.1 hb
  obtain ⟨t, hs', -⟩ := h.slot hs
  exact Checker.borrow_eq_ok.2 ⟨⟨_, hs'⟩, h.availability ha,
    fun hm => ⟨h.availability (hw hm).1, h.writeProhibited (hw hm).2⟩,
    fun hm => h.readProhibited (hr hm), e⟩

theorem assign (h : Γ.Clearer Δ) (hv : c.variance = .covariant) (hd : T.defined = true)
    (ha : c.assign Δ p T = .ok Δ') : ∃ Γ', c.assign Γ p T = .ok Γ' ∧ Γ'.Clearer Δ' := by
  obtain ⟨hav, hw, hT, hwrite⟩ := Checker.assign_eq_ok.1 ha
  rw [hv] at hwrite
  obtain ⟨Γ', hwrite', hc⟩ := h.write hd hwrite
  rw [← hv] at hwrite'
  exact ⟨Γ', Checker.assign_eq_ok.2 ⟨h.availability hav, h.writeProhibited hw, hT, hwrite'⟩, hc⟩

theorem merge (h₁ : Γ₁.Clearer Δ₁) (h₂ : Γ₂.Clearer Δ₂) (hv : c.variance = .covariant)
    (hm : c.merge (Δ₁, T₁) (Δ₂, T₂) = .ok (Δ', T)) :
    ∃ Γ', c.merge (Γ₁, T₁) (Γ₂, T₂) = .ok (Γ', T) ∧ Γ'.Clearer Δ' := by
  obtain ⟨hc, hj, hu⟩ := Checker.merge_eq_ok.1 hm
  rw [hv] at hc hj
  obtain ⟨Γ', hj', hΓ'⟩ := h₁.join h₂ hj
  have hc' := h₁.compatible h₂ (.refl T₁) (.refl T₂) hc
  rw [← hv] at hc' hj'
  exact ⟨Γ', Checker.merge_eq_ok.2 ⟨hc', hj', hu⟩, hΓ'⟩

theorem comparable {Ts : List Ty} (h : Γ.Clearer Δ) (hv : c.variance = .covariant)
    (hc : c.comparable Δ Ts = .ok ()) : c.comparable Γ Ts = .ok () := by
  unfold Checker.comparable at hc ⊢
  split at hc
  · rw [Checker.expect_eq_ok, hv] at hc ⊢
    exact h.compatible h (.refl _) (.refl _) hc
  · rfl

end Env.Clearer

namespace Checker

/-- The checker that copies wherever an access is not annotated and the type allows. -/
def copying (c : Checker) : Checker := { c with copyInference := true }

/-! ### Reads -/

/-- **A read that succeeds does so with copy inference**, and moves no more out. -/
theorem read_copying {k : AccessKind} {N : List String} (h : Γ.Clearer Δ)
    (hΔ : Env.Reserved N Δ U) (hN : Env.Unparked N) (hp : p.name ∈ N)
    (hr : c.read Δ k p = .ok (Δ', T)) :
    ∃ Γ', c.copying.read Γ k p = .ok (Γ', T) ∧ Γ'.Clearer Δ' := by
  obtain ⟨s, hs, ha, ht, hcase⟩ := read_eq_ok.1 hr
  obtain ⟨t, hs', hc⟩ := h.slot hs
  have ha' := h.availability ha
  have ht' := h.typeOf_eq ht (hΔ.read hN hp hr).whole
  rcases hcase with ⟨hcopy, hread, rfl⟩ | ⟨hmove, hav, hwrite, u, hf, rfl⟩
  · have hcopy' : c.copying.copies k p T = .ok true := by
      cases k with
      | copy => exact hcopy
      | move => cases hcopy
      | inferred =>
        simp only [copies, Except.ok.injEq, Bool.and_eq_true] at hcopy
        simp [copies, copying, hcopy.2]
    exact ⟨Γ, read_eq_ok.2 ⟨_, hs', ha', ht', .inl ⟨hcopy', h.readProhibited hread, rfl⟩⟩, h⟩
  · obtain ⟨u', hf', hu⟩ := hc.reached hf
    by_cases hinfer : k = .inferred ∧ T.copyable = true
    · -- what is moved out for one checker is left alone by the other one
      have hcopy' : c.copying.copies k p T = .ok true := by
        rw [hinfer.1]
        simp [copies, copying, hinfer.2]
      have hread := Env.readProhibited_of_writeProhibited (h.writeProhibited hwrite)
      refine ⟨Γ, read_eq_ok.2 ⟨_, hs', ha', ht', .inl ⟨hcopy', hread, rfl⟩⟩, ?_⟩
      rw [← NameMap.insert_self hs']
      refine h.insert ?_ _ _
      rw [← Ty.replaceAt_self hf']
      exact hc.replaceAt hf (.hidden hu)
    · have hmove' : c.copying.copies k p T = .ok false := by
        cases k with
        | copy => exact hmove
        | move => rfl
        | inferred =>
          have hT : T.copyable = false := by simpa using hinfer
          simp [copies, copying, hT]
      exact ⟨_, read_eq_ok.2 ⟨_, hs', ha', ht', .inr ⟨hmove', h.availability hav,
        h.writeProhibited hwrite, u', hf', rfl⟩⟩, h.insert (hc.replaceAt hf (.shadow hu)) _ _⟩

/-! ### Programs -/

/-- The second checker has found the same type, and less has been moved out for it. -/
def Cleared (N : List String) : Pairing := fun Γ T Δ U =>
  Δ.Clearer Γ ∧ U = T ∧ Env.Reserved N Γ T

/-- **No rule but that for reads tells the two checkers apart.** -/
theorem simulation_copying {N : List String} (hv : c.variance = .covariant)
    (hN : Env.Unparked N) : Simulation c c.copying id (fun b => b.term.names ⊆ N) (Cleared N) where
  forms := rfl
  forget h := ⟨h.1, rfl, h.2.2.unit⟩
  int h := ⟨h.1, rfl, h.2.2.int⟩
  box := by
    rintro Γ T Δ U ⟨h, rfl, hΓ⟩
    exact ⟨h, rfl, hΓ.box⟩
  contains _ _ h := h.1.contains _
  fresh h := h.1.freshName
  read := by
    rintro Γ Γ' Δ T l sp k p hok ⟨h, -, hΓ⟩ hr
    have hp : p.name ∈ N := hok List.mem_cons_self
    obtain ⟨Δ', hr', hc⟩ := read_copying h hΓ hN hp hr
    exact ⟨Δ', T, hr', hc, rfl, hΓ.read hN hp hr⟩
  borrow := by
    rintro Γ Δ T l sp m p hok ⟨h, -, hΓ⟩ hb
    obtain ⟨-, -, -, -, rfl⟩ := borrow_eq_ok.1 hb
    exact ⟨_, h.borrow hb, h, rfl, hΓ.borrowOf (hok List.mem_cons_self)⟩
  bind := by
    rintro Γ Γ₁ Δ₁ T U l sp x xs t - ⟨h, rfl, hΓ⟩
    exact ⟨h.insert (Ty.Clearer.refl U) x l, rfl, hΓ.insert x l⟩
  hold := by
    rintro Γ T Δ U ⟨h, rfl, hΓ⟩ l
    exact ⟨h.insert (Ty.Clearer.refl U) _ l, rfl, hΓ.insert _ l⟩
  assign := by
    rintro Γ Γ₁ Γ' Δ₁ T U l sp p t hok - ⟨h, rfl, hΓ⟩ ha
    obtain ⟨Δ', ha', hc⟩ := h.assign hv hΓ.whole ha
    exact ⟨Δ', ha', hc, rfl, hΓ.write hN (hok List.mem_cons_self) (assign_ok ha).2.2⟩
  within := by
    rintro Γ T Δ U l ⟨h, rfl, -⟩ hw
    exact (h.within U l).trans hw
  leave := by
    rintro Γ Γ₁ Δ₁ T U l sp inner ts - ⟨h, rfl, hΓ⟩
    exact ⟨h.dropLifetime inner, rfl, hΓ.sub fun x s hs => (Env.get?_dropLifetime.1 hs).1⟩
  release := by
    rintro Γ Δ K ⟨h, -, hΓ⟩ hK
    rw [List.map_id]
    refine ⟨h.eraseAll K, congrArg Ty.compound (List.filterMap_congr fun n hn => ?_),
      hΓ.release fun n hn => (hK n hn).temporary⟩
    -- what is parked is whole, so it is the same
    obtain ⟨i, rfl⟩ := (hK n hn).temporary
    cases hs : Γ.get? (Env.temporary i) with
    | none => rw [h.get?_eq_none.2 hs]
    | some s =>
      obtain ⟨t, hs', hc⟩ := h.slot hs
      rw [hs', Option.map_some, Option.map_some, Ty.Clearer.eq_of_defined hc (hΓ.parked i s hs)]
  comparable := by
    rintro Γ Γ₁ Δ₁ l sp o e lhs rhs onTrue onFalse Ts Us - - - ⟨h, hU, -⟩ hc
    cases hU
    exact h.comparable hv hc
  merge := by
    rintro Γ Γ₁ Γ' T l sp o e lhs rhs onTrue onFalse Ts ⟨Γl, Tl⟩ ⟨Γr, Tr⟩ Δl Ul Δr Ur - - - - -
      ⟨hl, rfl, hΓl⟩ ⟨hr, rfl, hΓr⟩ hm
    obtain ⟨Δ', hm', hc⟩ := hl.merge hr hv hm
    exact ⟨Δ', T, hm', hc, rfl, hΓl.merge hΓr hm⟩

/-- **Copy inference only accepts more.** A program without names of temporaries that is accepted
where every access that is not annotated moves is accepted, with the same type, where such an access
copies what may be copied. -/
theorem accepts_copying (extensions : List Extension) (root : Lifetime) (program : Term) (T : Ty)
    (hn : ∀ x ∈ program.names, ¬ "$tmp".toList <+: x.toList)
    (h : (checkProgram { copyInference := false, variance := .covariant, extensions } root
      program).result = .ok T) :
    (checkProgram { copyInference := true, variance := .covariant, extensions } root
      program).result = .ok T := by
  obtain ⟨-, -, U, h', -, rfl, -⟩ := (simulation_copying (N := program.names) rfl
    fun x hx => Env.ne_temporary (hn x hx)).checkProgram ⟨.refl (fun _ => rfl) .empty, rfl, .empty⟩
    (fun b hb => Visits.names_subset hb) h
  rwa [Term.rename_id] at h'

/-- `{ let mut x = 1; let mut y = x; x = 2; (y, x) }`, which moves out of `x`, or does not. -/
def refill : Term :=
  .block {} (.inside 1 (.root 0)) [.letMut {} "x" {} (.value {} (.int 1)),
    .letMut {} "y" {} (.access {} .inferred (.var "x")),
    .assign {} (.var "x") (.value {} (.int 2)),
    .ext {} 30 [.access {} .inferred (.var "y"), .access {} .inferred (.var "x")]]

theorem accepts_copying_refill :
    (∀ x ∈ refill.names, ¬ "$tmp".toList <+: x.toList) ∧
    (checkProgram { copyInference := false, variance := .covariant, extensions := Extension.all }
      (.root 0) refill).result = .ok (.compound [.int, .int]) ∧
    (checkProgram { copyInference := true, variance := .covariant, extensions := Extension.all }
      (.root 0) refill).result = .ok (.compound [.int, .int]) := by
  have hn : ∀ x ∈ refill.names, ¬ "$tmp".toList <+: x.toList := by decide
  have h : (checkProgram
      { copyInference := false, variance := .covariant, extensions := Extension.all }
      (.root 0) refill).result = .ok (.compound [.int, .int]) := rfl
  exact ⟨hn, h, accepts_copying Extension.all (.root 0) refill _ hn h⟩

end Checker

end Ownership
