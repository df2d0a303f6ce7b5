import Ownership.Proofs.Checking.Clearer
import Ownership.Proofs.Checking.Comparisons

/-!
# Where a write leads

A borrow has its targets written one after the other, each in the environment that the others have
left, so a test may come before an update or after it. If the ways of the write end apart from where
they pass, none of them is changed on the way. Then an environment is known that no order of the
targets gets beyond: the one that a write has left, with what was written wherever the place leads
(`Env.Takes`). In what lies below it all tests succeed.

* `Env.takes_of_write`: **a write that succeeds leaves an environment that takes it.**
* `Env.Takes.exists_write`: **a write succeeds below an environment that takes it**, and stays
  there.
-/

namespace Ownership

open Relation

variable {variance : Variance} {σ : String → Shape} {Γ Γ₁ Γ' Δ Θ : Env} {p q r : Place} {T U : Ty}
variable {s : Slot} {n : Nat} {whole : Bool} {P : Ty → Prop} {strong : Bool}

/-- A bound for finitely many, each of which has one. -/
theorem exists_bound {α : Type} {P : α → Nat → Prop} {l : List α}
    (mono : ∀ a n k, P a n → n ≤ k → P a k) (h : ∀ a ∈ l, ∃ n, P a n) :
    ∃ n, ∀ a ∈ l, P a n := by
  induction l with
  | nil => exact ⟨0, nofun⟩
  | cons a l ih =>
    obtain ⟨n, hn⟩ := h a List.mem_cons_self
    obtain ⟨k, hk⟩ := ih fun b hb => h b (List.mem_cons_of_mem _ hb)
    refine ⟨max n k, fun b hb => ?_⟩
    rcases List.mem_cons.1 hb with rfl | hb
    · exact mono b n _ hn (Nat.le_max_left ..)
    · exact mono b k _ (hk b hb) (Nat.le_max_right ..)

namespace Env

/-! ### Environments below others -/

/-- **Whatever a variable may be in the first environment**, it may be in the second one. -/
abbrev Under : Env → Env → Prop := Beneath fun ps qs => ∀ p ∈ ps, p ∈ qs

/-- Environments that lie below each other are the same. -/
theorem Under.antisymm (h : Γ.Under Δ) (h' : Δ.Under Γ) : Γ = Δ := by
  refine NameMap.ext_get? fun x => ?_
  cases hs : Δ.get? x with
  | none => exact h.get?_eq_none.2 hs
  | some s =>
    obtain ⟨t, ht, hts⟩ := h.slot hs
    obtain ⟨t', ht', hst⟩ := h'.slot' hs
    cases ht.symm.trans ht'
    rw [ht, Ty.Under.antisymm hts hst]

/-- **What has a type has one in an environment below.** The targets there have one shape, so their
types have a union. -/
theorem Under.typeUpTo (h : Γ.Under Δ) (hs : Γ.Shaped σ) (ht : typeUpTo Δ n p = .ok T) :
    ∃ U, typeUpTo Γ n p = .ok U := by
  induction n generalizing p T with
  | zero => cases ht
  | succ n ih =>
    obtain ⟨s, hslot, hf | ⟨m, ps, rest, hf, hu⟩⟩ := typeUpTo_ok ht
    · obtain ⟨t, hslot', hts⟩ := h.slot hslot
      obtain ⟨U, hf', -⟩ := hts.reached hf
      exact ⟨U, typeUpTo_of_reached hslot' hf'⟩
    · obtain ⟨t, hslot', hts⟩ := h.slot hslot
      obtain ⟨qs, hf', hsub⟩ := hts.crossed hf
      rw [typeUpTo_of_crossed hslot' hf']
      refine exists_unionOver (σ := σ) (s := (σ p.name).part p.path) nofun fun q hq => ?_
      obtain ⟨t, htq, rfl⟩ := List.mem_map.1 hq
      obtain ⟨v, hv, -⟩ := (under_of_unionOver hu).2 _ (List.mem_map.2 ⟨t, hsub t htq, rfl⟩)
      obtain ⟨u, hu⟩ := ih hv
      rw [← ((hs _ _ hslot').crossed hf').2 t htq]
      exact ⟨u, hu, hs.typeUpTo hu⟩

/-- What is borrowed has a type in an environment below, too. -/
theorem Under.kept (h : Γ.Under Δ) (hs : Γ.Shaped σ) (hΔ : Kept LentTyped σ Δ T) :
    Kept LentTyped σ Γ T := by
  have typed : ∀ p, (∃ U, Ownership.typeOf Δ p = .ok U) → ∃ U, Ownership.typeOf Γ p = .ok U := by
    rintro p ⟨U, hU⟩
    obtain ⟨V, hV⟩ := h.typeUpTo hs hU
    exact ⟨V, typeOf_of_typeUpTo hV⟩
  refine ⟨hs, hΔ.fits, fun x s m p hx hp => typed p ?_, fun m p hp => typed p (hΔ.holds.2 m p hp)⟩
  obtain ⟨t, hx', hts⟩ := h.slot' hx
  exact hΔ.holds.1 x _ m p hx' (Ty.Under.lends hts hp)

/-- A variable gets another type of its shape. -/
theorem Shaped.insert (h : Γ.Shaped σ) {x : String} {l : Lifetime} (hT : T.Fits σ (σ x)) :
    Shaped σ (Γ.insert x ⟨T, l⟩) := by
  intro y s hy
  rcases NameMap.get?_insert_some hy with ⟨rfl, rfl⟩ | ⟨-, hy⟩
  · exact hT
  · exact h y s hy

/-- **A place has a type** if all its ways end. -/
theorem Everywhere.typeUpTo (h : Γ.Everywhere true P p) (hs : Γ.Shaped σ) :
    ∃ n U, typeUpTo Γ n p = .ok U := by
  induction h with
  | reached hslot hf => exact ⟨1, _, typeUpTo_of_reached hslot hf⟩
  | @crossed p s m ps rest hslot hf _ ih =>
    obtain ⟨n, hn⟩ := exists_bound (l := ps.toList)
      (P := fun t n => ∃ U, Ownership.typeUpTo Γ n (t.extend rest) = .ok U)
      (fun t n k ⟨U, hU⟩ hn => ⟨U, typeUpTo_mono hU hn⟩) ih
    have hfits : ∀ q ∈ ps.toList.map (·.extend rest), ∃ U, Ownership.typeUpTo Γ n q = .ok U ∧
        U.Fits σ ((σ p.name).part p.path) := by
      intro q hq
      obtain ⟨t, ht, rfl⟩ := List.mem_map.1 hq
      obtain ⟨U, hU⟩ := hn t ht
      rw [← ((hs _ _ hslot).crossed hf).2 t ht]
      exact ⟨U, hU, hs.typeUpTo hU⟩
    obtain ⟨U, hU⟩ : ∃ U, unionOver (Ownership.typeUpTo Γ n) none
        (ps.toList.map (·.extend rest)) = .ok U := exists_unionOver nofun hfits
    exact ⟨n + 1, U, by rw [typeUpTo_of_crossed hslot hf, hU]⟩
  | moved hw => cases hw

/-! ### Places that may be written to -/

/-- What is written may be kept in the variable, and is not behind a shared borrow. -/
def Allows (Γ : Env) (T : Ty) (q : Place) : Prop := ∃ s, Γ.get? q.name = some s ∧
  Γ.within T s.lifetime = true ∧ ∀ m ps rest, s.ty.follow q.path = .crossed m ps rest → m = true

/-- **The environment takes a write** of `T` to `p`: all ways are allowed, and each of them ends in
what may be `T`. -/
structure Takes (Γ : Env) (T : Ty) (p : Place) : Prop where
  allows : ∀ q, ReflTransGen Γ.Follows p q → Γ.Allows T q
  everywhere : Γ.Everywhere true (fun u => T.Under u) p

namespace Takes

variable {t : Place} {m : Bool} {ps : PlaceSet} {rest : List Selector}

/-- So does every target of a borrow that is crossed. -/
theorem target (h : Γ.Takes T p) (hs : Γ.get? p.name = some s)
    (hf : s.ty.follow p.path = .crossed m ps rest) (ht : t ∈ ps) : Γ.Takes T (t.extend rest) :=
  ⟨fun q hq => h.allows q (.head ⟨s, m, ps, rest, t, hs, hf, ht, rfl⟩ hq),
    h.everywhere.targets hs hf ht⟩

/-- **The place passes all tests** in an environment below. -/
theorem admits (h : Θ.Takes T p) (hΘ : Kept LentTyped σ Θ T)
    (hT : T.Fits σ ((σ p.name).part p.path)) (hΔ : Δ.Under Θ) (hs : Δ.Shaped σ) :
    ∃ s, Admits .covariant Δ p T s := by
  obtain ⟨s, hslot, hw, -⟩ := h.allows p .refl
  obtain ⟨t, hslot', -⟩ := hΔ.slot hslot
  obtain ⟨n, V, hV⟩ := h.everywhere.typeUpTo hΘ.shaped
  obtain ⟨current, hc⟩ := hΔ.typeUpTo hs hV
  have htype := typeOf_of_typeUpTo hc
  have hkept := hΔ.kept hs hΘ
  exact ⟨_, hslot', (hΔ.within ..).trans hw, current, htype,
    compatible_of_fits (hkept.found htype) hkept (hs.typeOf htype) hT⟩

theorem exists_writeUpTo (h : Θ.Takes T p) (hΘ : Kept LentTyped σ Θ T)
    (hT : T.Fits σ ((σ p.name).part p.path)) :
    ∃ n, ∀ Δ, Δ.Under Θ → Δ.Shaped σ →
      ∃ Δ', writeUpTo .covariant T n false Δ p = .ok Δ' ∧ Δ'.Under Θ ∧ Δ'.Shaped σ := by
  have he := h.everywhere
  induction he with
  | @reached p s u hslot hf hu =>
    refine ⟨1, fun Δ hΔ hs => ?_⟩
    obtain ⟨t, hslot', hts⟩ := hΔ.slot hslot
    obtain ⟨s', ha⟩ := h.admits hΘ hT hΔ hs
    cases hslot'.symm.trans ha.slot
    -- the place has the shape of what is written, so there is a union
    obtain ⟨old, hf', hold⟩ := hts.reached hf
    obtain ⟨new, hnew, hnewu⟩ := Ty.exists_union hold hu
    have hfit := hs _ _ hslot'
    refine ⟨_, writeUpTo_of_reached ha hf' (.inr ⟨rfl, hnew⟩), ?_, ?_⟩
    · rw [← NameMap.insert_self hslot]
      refine hΔ.insert ?_ _ _
      rw [← Ty.replaceAt_self hf]
      exact hts.replaceAt hf hnewu
    · refine hs.insert (hfit.replaceAt hf' fun f hof => ?_)
      cases (hfit.reached hf').unique hof
      exact .of_union hnew hof hT
  | @crossed p s m ps rest hslot hf _ ih =>
    obtain ⟨n, hn⟩ := exists_bound (l := ps.toList) (P := fun t n => ∀ Δ, Δ.Under Θ → Δ.Shaped σ →
        ∃ Δ', writeUpTo .covariant T n false Δ (t.extend rest) = .ok Δ' ∧ Δ'.Under Θ ∧ Δ'.Shaped σ)
      (fun t n k hw hn Δ hΔ hs => (hw Δ hΔ hs).imp fun Δ' h => ⟨writeUpTo_mono h.1 hn, h.2⟩)
      fun t ht => ih t ht (h.target hslot hf ht)
        (by rwa [← ((hΘ.shaped _ _ hslot).crossed hf).2 t ht] at hT)
    refine ⟨n + 1, fun Δ hΔ hs => ?_⟩
    obtain ⟨t, hslot', hts⟩ := hΔ.slot hslot
    obtain ⟨s', ha⟩ := h.admits hΘ hT hΔ hs
    cases hslot'.symm.trans ha.slot
    obtain ⟨qs, hf', hsub⟩ := hts.crossed hf
    obtain ⟨s₀, hslot₀, -, hmut⟩ := h.allows p .refl
    cases hslot.symm.trans hslot₀
    cases hmut _ _ _ hf
    obtain ⟨Δ₁, hfold, hΔ₁, hs₁⟩ := foldlM_succeeds (I := fun Δ => Δ.Under Θ ∧ Δ.Shaped σ)
      (f := writeUpTo .covariant T n false) (l := qs.toList.map (·.extend rest))
      (fun q hq Δ hΔ => by
        obtain ⟨t, ht, rfl⟩ := List.mem_map.1 hq
        exact hn t (hsub t ht) Δ hΔ.1 hΔ.2) ⟨hΔ, hs⟩
    refine ⟨_, writeUpTo_of_crossed ha hf' hfold, ?_, hs₁.insert (hs _ _ hslot')⟩
    rw [← NameMap.insert_self hslot]
    exact hΔ₁.insert hts _ _
  | moved hw => cases hw

/-- **A write succeeds below an environment that takes it**, and stays below. -/
theorem exists_write (h : Θ.Takes T p) (hΘ : Kept LentTyped σ Θ T) (hd : T.defined = true)
    (hT : T.Fits σ ((σ p.name).part p.path)) (hΔ : Δ.Under Θ) (hs : Δ.Shaped σ) :
    ∃ Δ', write .covariant Δ p T false = .ok Δ' ∧ Δ'.Under Θ ∧ Δ'.Shaped σ := by
  obtain ⟨n, hn⟩ := h.exists_writeUpTo hΘ hT
  obtain ⟨Δ', hw, h'⟩ := hn Δ hΔ hs
  exact ⟨Δ', write_of_writeUpTo hd hw, h'⟩

end Takes

/-! ### What a write leaves -/

namespace Grows

variable {L : String → Prop}

/-- What has grown lies above. -/
theorem under (h : Grows T L Γ Γ') : Γ.Under Γ' := by
  intro x
  cases hs : Γ.get? x with
  | none =>
    rw [h.none x hs]
    exact .none
  | some s =>
    obtain ⟨s', hs', -, hl, -, hu, -⟩ := h.some x s hs
    rw [hs']
    exact .some ⟨hu, hl.symm⟩

/-- **The ways from the place are those that there were before.** -/
theorem ways (ha : Γ.Apart p) (h : Grows T (Γ.Lands p) Γ Γ')
    (hq : ReflTransGen Γ'.Follows p q) : ReflTransGen Γ.Follows p q := by
  induction hq with
  | refl => exact .refl
  | tail _ hstep ih =>
    obtain ⟨s, m, ps, rest, t, hs, hf, ht, rfl⟩ := hstep
    exact ih.tail ⟨s, m, ps, rest, t, (passed ha h ih hs hf).1, hf, ht, rfl⟩

/-- **Every place on the ways passes the tests of a write that succeeds.** -/
theorem allows (ha : Γ.Apart p) (h₁ : Grows T (Γ.Lands p) Γ Γ₁)
    (hq : ReflTransGen Γ.Follows p q) (h : writeUpTo variance T n false Γ₁ q = .ok Γ')
    (hr : ReflTransGen Γ.Follows q r) : Γ.Allows T r := by
  induction n generalizing Γ₁ q Γ' with
  | zero => cases h
  | succ n ih =>
    obtain ⟨s, hadm, hcase⟩ := writeUpTo_ok h
    obtain ⟨s₀, hs₀, ho, hl, -⟩ := h₁.slot hadm.slot
    -- a variable that is passed has the slot that it had at first
    have same : ∀ m ps rest, s₀.ty.follow q.path = .crossed m ps rest → s = s₀ :=
      fun m ps rest hf => ho (ha q.name ⟨q, s₀, m, ps, rest, hq, rfl, hs₀, hf⟩)
    rcases ReflTransGen.cases_head hr with rfl | ⟨t, hstep, hr⟩
    · refine ⟨s₀, hs₀, by rw [h₁.under.within, ← hl, hadm.within], fun m ps rest hf => ?_⟩
      cases same m ps rest hf
      rcases hcase with ⟨old, new, hf', -⟩ | ⟨ps', rest', Γ₂, hf', -⟩
      · cases hf.symm.trans hf'
      · cases hf.symm.trans hf'
        rfl
    · have hqt := hq.tail hstep
      obtain ⟨s', m, ps, rest, t, hs', hf, ht, rfl⟩ := hstep
      cases hs₀.symm.trans hs'
      cases same m ps rest hf
      rcases hcase with ⟨old, new, hf', -⟩ | ⟨ps', rest', Γ₂, hf', hfold, -⟩
      · cases hf.symm.trans hf'
      · cases hf.symm.trans hf'
        -- the target has been written to after some of the others
        have hways : ∀ u ∈ ps.toList.map (·.extend rest), ReflTransGen Γ.Follows p u := by
          intro u hu
          obtain ⟨t, ht, rfl⟩ := List.mem_map.1 hu
          exact hq.tail ⟨s, true, ps, rest, t, hs₀, hf, ht, rfl⟩
        obtain ⟨Δ, Δ', hΔ, hw⟩ := foldlM_steps (I := Grows T (Γ.Lands p) Γ)
          (fun u hu Δ Δ' hΔ hw => hΔ.trans (of_write ha hΔ (hways u hu) hw)) h₁ hfold
          (List.mem_map.2 ⟨t, ht, rfl⟩)
        exact ih hΔ hqt hw hr

end Grows

/-- **A write behind a borrow that succeeds leaves an environment that takes it**, if its ways end
apart. -/
theorem takes_of_write (ha : Γ.Apart p) (hd : T.defined = true)
    (h : write variance Γ p T false = .ok Γ') : Γ.Under Γ' ∧ Γ'.Takes T p := by
  rw [write] at h
  have hgrow : Grows T (Γ.Lands p) Γ Γ' := .of_write ha (.refl Γ) .refl h
  refine ⟨hgrow.under, fun q hq => ?_, ?_⟩
  · have hway := hgrow.ways ha hq
    obtain ⟨s, hs, hw, hmut⟩ := Grows.allows ha (.refl Γ) .refl h hway
    obtain ⟨s', hs', -, hl, -⟩ := hgrow.some _ s hs
    refine ⟨s', hs', by rw [← hgrow.under.within, hl, hw], fun m ps rest hf => ?_⟩
    cases hs.symm.trans (Grows.passed ha hgrow hway hs' hf).1
    exact hmut m ps rest hf
  · rw [← hd]
    exact Grows.everywhere ha (.refl Γ) (fun _ _ h h' => h'.trans h) (.refl T) .refl h

end Env

end Ownership
