import Mathlib.Logic.Relation
import Ownership.Proofs.Checking.Unions
import Ownership.Proofs.Soundness.Spread
import Ownership.Proofs.Typing

/-!
# Where a write goes

A place that crosses a borrow leads on to every target of it (`Env.Follows`). A write goes all of
these ways, and its ends get wider types. Nothing is lost as long as no variable that a way passes
is one that a way ends in (`Env.Apart`), since the variables that are passed keep the types that
they had at first.

* `writeUpTo_slots`: what holds of every slot, and is kept by an update, holds after a write.
* `Env.Grows.of_write`: **a write makes the variables that it ends in wider, and leaves all others
  alone.**
* `Env.Grows.everywhere`: **what is written is found wherever it may have gone.**
-/

namespace Ownership

open Relation

variable {variance : Variance} {Γ Γ₁ Γ₂ Γ' : Env} {p q t : Place} {ty T u old new : Ty}
variable {s s' : Slot} {m strong : Bool} {ps : PlaceSet} {rest : List Selector} {n : Nat}
variable {x : String}

/-! ### The tests of a write -/

/-- **The place passes the tests** that are made before anything is written to it. -/
structure Admits (variance : Variance) (Γ : Env) (p : Place) (ty : Ty) (s : Slot) : Prop where
  slot : Γ.get? p.name = some s
  within : Γ.within ty s.lifetime = true
  compatible : ∃ current, typeOf Γ p = .ok current ∧
    compatible variance Γ current ty Γ = .ok true

/-- A write ends in a part of a variable, or goes on behind a unique borrow. -/
theorem writeUpTo_ok (h : writeUpTo variance ty (n + 1) strong Γ p = .ok Γ') :
    ∃ s, Admits variance Γ p ty s ∧
      ((∃ old new, s.ty.follow p.path = .reached old ∧
          Γ' = Γ.insert p.name ⟨s.ty.replaceAt p.path new, s.lifetime⟩ ∧
          ((strong = true ∧ new = ty) ∨ (strong = false ∧ old.union ty = some new))) ∨
        ∃ ps rest Γ₁, s.ty.follow p.path = .crossed true ps rest ∧
          (ps.toList.map (·.extend rest)).foldlM (writeUpTo variance ty n false) Γ = .ok Γ₁ ∧
          Γ' = Γ₁.insert p.name s) := by
  obtain ⟨s, hs, hw, h'⟩ := spreadUpTo_ok (by rwa [spreadUpTo_false])
  simp only [spreadUpTo_false, Bool.false_eq_true, if_false] at h'
  refine ⟨s, ⟨hs, hw, ?_⟩, h'⟩
  simp only [writeUpTo, Traced.bind_eq_ok] at h
  obtain ⟨s₁, hs₁, h⟩ := h
  cases hs.symm.trans (declared_ok.1 hs₁)
  simp only [hw, Bool.not_true, Bool.false_eq_true, if_false, Traced.bind_eq_ok] at h
  obtain ⟨current, ht, b, hb, h⟩ := h
  cases b with
  | false => cases h
  | true => exact ⟨current, ht, hb⟩

/-- What has been written to has passed the tests. -/
theorem admits_of_write (h : write variance Γ p T strong = .ok Γ') :
    ∃ s, Admits variance Γ p T s := by
  rw [write] at h
  generalize crossings _ _ p = n at h
  cases n with
  | zero => cases h
  | succ n =>
    obtain ⟨s, hs, -⟩ := writeUpTo_ok h
    exact ⟨s, hs⟩

/-- **Why a write fails.** One of the tests before it does, or fails to end, or it cannot be made
where the path leads. -/
theorem writeUpTo_error {v : Violation}
    (h : writeUpTo variance ty (n + 1) strong Γ p = .error v) :
    (Γ.get? p.name = none ∧ v = .undeclared p.name) ∨ ∃ s, Γ.get? p.name = some s ∧
      ((Γ.within ty s.lifetime = false ∧ v = .notWithin ty) ∨ typeOf Γ p = .error v ∨
        ∃ current, typeOf Γ p = .ok current ∧ (compatible variance Γ current ty Γ = .error v ∨
          (compatible variance Γ current ty Γ = .ok false ∧ v = .incompatible current ty) ∨
          (compatible variance Γ current ty Γ = .ok true ∧
            ((∃ ps rest, s.ty.follow p.path = .crossed true ps rest ∧
                (ps.toList.map (·.extend rest)).foldlM (writeUpTo variance ty n false) Γ =
                  .error v) ∨
              (∃ old, s.ty.follow p.path = .reached old ∧ strong = false ∧ old.union ty = none ∧
                v = .incompatible old ty) ∨
              v = .notMutable p ∨ v = .notWritable p ∨ v = .invalidPath p)))) := by
  rw [writeUpTo, Traced.bind_eq_error] at h
  obtain h | ⟨s, hs, h⟩ := h
  · rw [Env.declared] at h
    cases hs : Γ.get? p.name with
    | none =>
      rw [hs] at h
      cases h
      exact .inl ⟨rfl, rfl⟩
    | some s =>
      rw [hs] at h
      cases h
  · refine .inr ⟨s, declared_ok.1 hs, ?_⟩
    cases hw : Γ.within ty s.lifetime with
    | false =>
      simp only [hw] at h
      cases h
      exact .inl ⟨rfl, rfl⟩
    | true =>
      simp only [hw, Bool.not_true, Bool.false_eq_true, if_false, Traced.bind_eq_error] at h
      obtain h | ⟨current, ht, h | ⟨b, hb, h⟩⟩ := h
      · exact .inr (.inl h)
      · exact .inr (.inr ⟨current, ht, .inl h⟩)
      · refine .inr (.inr ⟨current, ht, ?_⟩)
        cases b with
        | false =>
          cases h
          exact .inr (.inl ⟨hb, rfl⟩)
        | true =>
          refine .inr (.inr ⟨hb, ?_⟩)
          simp only [Bool.not_true, Bool.false_eq_true, if_false] at h
          cases hf : s.ty.follow p.path with
          | reached old =>
            simp only [hf] at h
            cases strong with
            | true => cases h
            | false =>
              cases hu : old.union ty with
              | some new =>
                simp only [hu] at h
                cases h
              | none =>
                simp only [hu] at h
                cases h
                exact .inr (.inl ⟨old, rfl, rfl, hu, rfl⟩)
          | crossed m ps rest =>
            cases m with
            | false =>
              simp only [hf] at h
              cases h
              exact .inr (.inr (.inl rfl))
            | true =>
              simp only [hf, Traced.bind_eq_error] at h
              obtain h | ⟨Δ, -, h⟩ := h
              · exact .inl ⟨ps, rest, rfl, h⟩
              · cases h
          | shadowed =>
            simp only [hf] at h
            cases h
            exact .inr (.inr (.inr (.inl rfl)))
          | notReference =>
            simp only [hf] at h
            cases h
            exact .inr (.inr (.inr (.inr rfl)))
          | misfit =>
            simp only [hf] at h
            cases h
            exact .inr (.inr (.inr (.inr rfl)))

/-- Behind a borrow every write is weak. -/
theorem writeUpTo_crossed (hs : Γ.get? p.name = some s)
    (hf : s.ty.follow p.path = .crossed m ps rest) :
    writeUpTo variance T n strong Γ p = writeUpTo variance T n false Γ p := by
  cases n with
  | zero => rfl
  | succ n => cases m <;> simp only [writeUpTo, declared_ok.2 hs, Traced.ok_bind, hf]

/-- What a step keeps is kept by a fold. -/
theorem foldlM_keeps {α β ε : Type} {f : β → α → Except ε β} {I : β → Prop} {as : List α} {b b' : β}
    (step : ∀ a ∈ as, ∀ b b', I b → f b a = .ok b' → I b') (hb : I b)
    (h : as.foldlM f b = .ok b') : I b' := by
  induction as generalizing b with
  | nil =>
    cases h
    exact hb
  | cons a as ih =>
    rw [List.foldlM_cons, Traced.bind_eq_ok] at h
    obtain ⟨b₁, h₁, h⟩ := h
    exact ih (fun a ha => step a (List.mem_cons_of_mem _ ha))
      (step a List.mem_cons_self b b₁ hb h₁) h

/-- A fold that succeeds does so at each of its steps. -/
theorem foldlM_steps {α β ε : Type} {f : β → α → Except ε β} {I : β → Prop} {as : List α} {b b' : β}
    {a : α} (step : ∀ a ∈ as, ∀ b b', I b → f b a = .ok b' → I b') (hb : I b)
    (h : as.foldlM f b = .ok b') (ha : a ∈ as) : ∃ c c', I c ∧ f c a = .ok c' := by
  induction as generalizing b with
  | nil => cases ha
  | cons d as ih =>
    rw [List.foldlM_cons, Traced.bind_eq_ok] at h
    obtain ⟨b₁, h₁, h⟩ := h
    rcases List.mem_cons.1 ha with rfl | ha
    · exact ⟨b, b₁, hb, h₁⟩
    · exact ih (fun a ha => step a (List.mem_cons_of_mem _ ha))
        (step d List.mem_cons_self b b₁ hb h₁) h ha

/-- A fold that fails does so at one of its steps. -/
theorem foldlM_fails {α β ε : Type} {f : β → α → Except ε β} {I : β → Prop} {as : List α} {b : β}
    {e : ε} (step : ∀ a ∈ as, ∀ b b', I b → f b a = .ok b' → I b') (hb : I b)
    (h : as.foldlM f b = .error e) : ∃ a ∈ as, ∃ b', I b' ∧ f b' a = .error e := by
  induction as generalizing b with
  | nil => cases h
  | cons a as ih =>
    rw [List.foldlM_cons, Traced.bind_eq_error] at h
    rcases h with h | ⟨b₁, h₁, h⟩
    · exact ⟨a, List.mem_cons_self, b, hb, h⟩
    · obtain ⟨d, hd, hfail⟩ := ih (fun a ha => step a (List.mem_cons_of_mem _ ha))
        (step a List.mem_cons_self b b₁ hb h₁) h
      exact ⟨d, List.mem_cons_of_mem _ hd, hfail⟩

/-- The environment binds the same variables as `Γ`, to slots that satisfy `R`. -/
structure Env.Slots (Γ : Env) (R : String → Slot → Prop) (Γ' : Env) : Prop where
  names : ∀ x, Γ'.get? x = none ↔ Γ.get? x = none
  slot : ∀ x s, Γ'.get? x = some s → R x s

namespace Env.Slots

variable {R : String → Slot → Prop}

theorem bound (h : Γ.Slots R Γ') (hs : Γ.get? x = some s) : ∃ s', Γ'.get? x = some s' ∧ R x s' := by
  cases hx : Γ'.get? x with
  | none =>
    rw [h.names, hs] at hx
    cases hx
  | some s' => exact ⟨s', rfl, h.slot x s' hx⟩

theorem insert (h : Γ.Slots R Γ') (hx : Γ'.get? x = some s') (hs : R x s) :
    Γ.Slots R (Γ'.insert x s) where
  names := by
    intro y
    rw [NameMap.get?_insert]
    split
    · rename_i e
      subst e
      rw [← h.names, hx]
      simp
    · exact h.names y
  slot := by
    intro y s' hy
    rw [NameMap.get?_insert] at hy
    split at hy
    · rename_i e
      subst e
      cases hy
      exact hs
    · exact h.slot y s' hy

end Env.Slots

/-- **What holds of every slot holds after a write**, if an update keeps it. Only places for which
`Q` holds are written to. -/
theorem writeUpTo_slots {R : String → Slot → Prop} {Q : Place → Prop}
    (next : ∀ q s ps rest t, Q q → R q.name s → s.ty.follow q.path = .crossed true ps rest →
      t ∈ ps → Q (t.extend rest))
    (put : ∀ Γ' q s old new, Γ.Slots R Γ' → Q q → Admits variance Γ' q ty s →
      s.ty.follow q.path = .reached old → (strong = true ∧ new = ty ∨ old.union ty = some new) →
      R q.name ⟨s.ty.replaceAt q.path new, s.lifetime⟩)
    (hΓ : Γ.Slots R Γ₁) (hp : Q p) (h : writeUpTo variance ty n strong Γ₁ p = .ok Γ') :
    Γ.Slots R Γ' := by
  induction n generalizing strong Γ₁ p Γ' with
  | zero => cases h
  | succ n ih =>
    obtain ⟨s, ha, ⟨old, new, hf, rfl, hnew⟩ | ⟨ps, rest, Γ₂, hf, hfold, rfl⟩⟩ := writeUpTo_ok h
    · exact hΓ.insert ha.slot (put Γ₁ p s old new hΓ hp ha hf (hnew.imp_right And.right))
    · -- one target after the other, and then the slot that was there at first
      have hs : R p.name s := hΓ.slot _ _ ha.slot
      have hΓ₂ : Γ.Slots R Γ₂ := by
        refine foldlM_keeps (fun q hq Γ₃ Γ₄ h₃ h₄ => ?_) hΓ hfold
        obtain ⟨t, ht, rfl⟩ := List.mem_map.1 hq
        refine ih (fun Γ' q s old new hΓ' hq ha hf hn => ?_) h₃ (next p s ps rest t hp hs hf ht) h₄
        exact put Γ' q s old new hΓ' hq ha hf (hn.imp_left (absurd ·.1 Bool.false_ne_true))
      obtain ⟨s₁, hs₁⟩ := Option.ne_none_iff_exists'.1
        (fun e => by rw [hΓ₂.names, ← hΓ.names, ha.slot] at e; cases e)
      exact hΓ₂.insert hs₁ hs

/-- A write adds no borrow to a variable but those of what is written. -/
theorem lends_of_write (h : write variance Γ p ty strong = .ok Γ') (hs : Γ'.get? x = some s)
    (ht : s.ty.Lends m t) : (∃ s', Γ.get? x = some s' ∧ s'.ty.Lends m t) ∨ ty.Lends m t := by
  have hslots : Γ.Slots (fun x s => ∀ m t, s.ty.Lends m t →
      (∃ s', Γ.get? x = some s' ∧ s'.ty.Lends m t) ∨ ty.Lends m t) Γ' := by
    refine writeUpTo_slots (Q := fun _ => True) (fun _ _ _ _ _ _ _ _ _ => trivial)
      (fun Γ₁ q s old new h₁ _ hadm hf hnew m t ht => ?_)
      ⟨fun _ => Iff.rfl, fun x s hs m t ht => .inl ⟨s, hs, ht⟩⟩ trivial h
    exact (Ty.lends_of_put hf (hnew.imp_left And.right) ht).elim (h₁.slot _ _ hadm.slot m t) .inr
  exact hslots.slot x s hs m t ht

/-! ### Ways -/

namespace Env

/-- **The place leads on** to `q`: it crosses a borrow, and `q` is where it goes on from one of the
targets. -/
def Follows (Γ : Env) (p q : Place) : Prop :=
  ∃ s m ps rest t, Γ.get? p.name = some s ∧ s.ty.follow p.path = .crossed m ps rest ∧ t ∈ ps ∧
    q = t.extend rest

/-- A borrow in the variable `x` may point into the variable `y`. -/
def Points (Γ : Env) (x y : String) : Prop :=
  ∃ s m t, Γ.get? x = some s ∧ s.ty.Lends m t ∧ t.name = y

/-- Some way from `p` ends in the variable `x`. -/
def Lands (Γ : Env) (p : Place) (x : String) : Prop :=
  ∃ q s u, ReflTransGen Γ.Follows p q ∧ q.name = x ∧ Γ.get? x = some s ∧
    s.ty.follow q.path = .reached u

/-- Some way from `p` goes on behind a borrow in the variable `x`. -/
def Passes (Γ : Env) (p : Place) (x : String) : Prop :=
  ∃ q s m ps rest, ReflTransGen Γ.Follows p q ∧ q.name = x ∧ Γ.get? x = some s ∧
    s.ty.follow q.path = .crossed m ps rest

/-- **No way from `p` ends in a variable that a way passes.** -/
def Apart (Γ : Env) (p : Place) : Prop := ∀ x, Γ.Passes p x → ¬ Γ.Lands p x

/-- **Wherever `p` may lead, what is found there satisfies `P`.** If `whole` is set, nothing on the
way has been moved out. -/
inductive Everywhere (Γ : Env) (whole : Bool) (P : Ty → Prop) : Place → Prop where
  | reached {p : Place} {s : Slot} {u : Ty} : Γ.get? p.name = some s →
      s.ty.follow p.path = .reached u → P u → Everywhere Γ whole P p
  | crossed {p : Place} {s : Slot} {m : Bool} {ps : PlaceSet} {rest : List Selector} :
      Γ.get? p.name = some s → s.ty.follow p.path = .crossed m ps rest →
      (∀ t ∈ ps, Everywhere Γ whole P (t.extend rest)) → Everywhere Γ whole P p
  | moved {p : Place} {s : Slot} : whole = false → Γ.get? p.name = some s →
      s.ty.follow p.path = .shadowed → Everywhere Γ whole P p

namespace Everywhere

variable {whole : Bool} {P P' : Ty → Prop}

theorem mono (hP : ∀ u, P u → P' u) (h : Γ.Everywhere whole P p) : Γ.Everywhere whole P' p := by
  induction h with
  | reached hs hf hu => exact .reached hs hf (hP _ hu)
  | crossed hs hf _ ih => exact .crossed hs hf ih
  | moved hw hs hf => exact .moved hw hs hf

/-- What is found behind a borrow is found at each of its targets. -/
theorem targets (h : Γ.Everywhere whole P p) (hs : Γ.get? p.name = some s)
    (hf : s.ty.follow p.path = .crossed m ps rest) (ht : t ∈ ps) :
    Γ.Everywhere whole P (t.extend rest) := by
  cases h with
  | reached hs' hf' =>
    cases hs.symm.trans hs'
    cases hf.symm.trans hf'
  | crossed hs' hf' hall =>
    cases hs.symm.trans hs'
    cases hf.symm.trans hf'
    exact hall t ht
  | moved _ hs' hf' =>
    cases hs.symm.trans hs'
    cases hf.symm.trans hf'

end Everywhere

theorem Follows.points (h : Γ.Follows p q) : Γ.Points p.name q.name := by
  obtain ⟨s, m, ps, rest, t, hs, hf, ht, rfl⟩ := h
  exact ⟨s, m, t, hs, Ty.lends_of_crossed hf ht, rfl⟩

theorem points_of_ways (h : ReflTransGen Γ.Follows p q) :
    ReflTransGen Γ.Points p.name q.name := by
  induction h with
  | refl => exact .refl
  | tail _ hq ih => exact ih.tail hq.points

end Env

theorem unionOver_lends {f : Place → Except Violation Ty} {joined : Option Ty} {places : List Place}
    (h : unionOver f joined places = .ok T) (ht : T.Lends m t) :
    (∃ u, joined = some u ∧ u.Lends m t) ∨ ∃ p ∈ places, ∃ u, f p = .ok u ∧ u.Lends m t := by
  revert ht
  refine unionOver_closed (fun hu ha hb ht => ((Ty.lends_union hu).1 ht).elim ha hb) h
    (fun u hu ht => .inl ⟨u, hu, ht⟩) (fun p hp u hu ht => .inr ⟨p, hp, u, hu, ht⟩) fun _ _ ht => ?_
  exact absurd ht Ty.not_lends_unit

namespace Env

/-- What the type of a place lends is lent by a variable that a way from the place ends in. -/
theorem lends_of_typeUpTo (h : typeUpTo Γ n p = .ok T) (ht : T.Lends m t) :
    ∃ x s, Γ.Lands p x ∧ Γ.get? x = some s ∧ s.ty.Lends m t := by
  induction n generalizing p T with
  | zero => cases h
  | succ n ih =>
    obtain ⟨s, hs, hf | ⟨k, ps, rest, hf, h⟩⟩ := typeUpTo_ok h
    · exact ⟨p.name, s, ⟨p, s, T, .refl, rfl, hs, hf⟩, hs, Ty.lends_of_reached hf ht⟩
    · rcases unionOver_lends h ht with ⟨_, ⟨⟩, -⟩ | ⟨q, hq, u, hu, ht⟩
      obtain ⟨r, hr, rfl⟩ := List.mem_map.1 hq
      obtain ⟨x, s', ⟨q, s₁, v, hw, hland⟩, hx⟩ := ih hu ht
      exact ⟨x, s', ⟨q, s₁, v, .head ⟨s, k, ps, rest, r, hs, hf, hr, rfl⟩ hw, hland⟩, hx⟩

theorem lends_of_typeOf (h : typeOf Γ p = .ok T) (ht : T.Lends m t) :
    ∃ x s, Γ.Lands p x ∧ Γ.get? x = some s ∧ s.ty.Lends m t := lends_of_typeUpTo h ht

end Env

/-- What has been read lends no more than the variables do, and neither do these after it. -/
theorem Checker.lends_of_read {c : Checker} {kind : AccessKind}
    (h : c.read Γ kind p = .ok (Γ', T)) :
    (∀ x s m q, Γ'.get? x = some s → s.ty.Lends m q →
      ∃ s', Γ.get? x = some s' ∧ s'.ty.Lends m q) ∧
      ∀ m q, T.Lends m q → ∃ x s, Γ.get? x = some s ∧ s.ty.Lends m q := by
  obtain ⟨s, hs, -, ht, hcase⟩ := read_ok h
  refine ⟨fun x s' m q hx hq => ?_, fun m q hq => ?_⟩
  · rcases hcase with ⟨-, rfl⟩ | ⟨-, -, u, hf, rfl⟩
    · exact ⟨s', hx, hq⟩
    · rcases NameMap.get?_insert_some hx with ⟨rfl, rfl⟩ | ⟨-, hx⟩
      · exact ⟨s, hs, Ty.lends_of_moved hf hq⟩
      · exact ⟨s', hx, hq⟩
  · obtain ⟨x, s', -, hs', hq⟩ := Env.lends_of_typeOf ht hq
    exact ⟨x, s', hs', hq⟩

namespace Env

/-! ### Wider variables -/

/-- **The variables in `L` have wider types** in `Γ'`, by what `T` lends, and all others have those
that they have in `Γ`. -/
structure Grows (T : Ty) (L : String → Prop) (Γ Γ' : Env) : Prop where
  none : ∀ x, Γ.get? x = none → Γ'.get? x = none
  some : ∀ x s, Γ.get? x = some s → ∃ s', Γ'.get? x = some s' ∧ (¬ L x → s' = s) ∧
    s'.lifetime = s.lifetime ∧ s.ty.Widens T.defined s'.ty ∧ s.ty.Under s'.ty ∧
    ∀ m t, s'.ty.Lends m t → s.ty.Lends m t ∨ T.Lends m t

/-- The slot that `x` has in `Γ` has been made wider, by what `T` lends, or `L` does not hold of
`x` and it is as it was. -/
def GrownFrom (T : Ty) (L : String → Prop) (Γ : Env) (x : String) (s' : Slot) : Prop :=
  ∃ s, Γ.get? x = .some s ∧ (¬ L x → s' = s) ∧ s'.lifetime = s.lifetime ∧
    s.ty.Widens T.defined s'.ty ∧ s.ty.Under s'.ty ∧
    ∀ m t, s'.ty.Lends m t → s.ty.Lends m t ∨ T.Lends m t

namespace Grows

variable {L : String → Prop} {P : Ty → Prop}

theorem refl (Γ : Env) : Grows T L Γ Γ :=
  ⟨fun _ h => h, fun _ s h => ⟨s, h, fun _ => rfl, rfl, .refl _, .refl _,
    fun _ _ => .inl⟩⟩

theorem trans (h : Grows T L Γ Γ₁) (h' : Grows T L Γ₁ Γ') : Grows T L Γ Γ' where
  none := fun x hx => h'.none x (h.none x hx)
  some := by
    intro x s hs
    obtain ⟨s₁, hs₁, ho, hl, hw, hu, hn⟩ := h.some x s hs
    obtain ⟨s', hs', ho', hl', hw', hu', hn'⟩ := h'.some x s₁ hs₁
    exact ⟨s', hs', fun hx => (ho' hx).trans (ho hx), hl'.trans hl, hw.trans hw', hu.trans hu',
      fun m t ht => (hn' m t ht).elim (hn m t) .inr⟩

/-- A slot after is wider than the one before. -/
theorem slot (h : Grows T L Γ Γ') (hs : Γ'.get? x = .some s') : GrownFrom T L Γ x s' := by
  cases hx : Γ.get? x with
  | none =>
    rw [h.none x hx] at hs
    cases hs
  | some s =>
    obtain ⟨s₁, hs₁, h⟩ := h.some x s hx
    rw [hs₁] at hs
    cases hs
    exact ⟨s, hx, h⟩

/-- A variable that a way passes has the type that it had at first. -/
theorem passed (ha : Γ.Apart p) (h : Grows T (Γ.Lands p) Γ Γ')
    (hq : ReflTransGen Γ.Follows p q) (hs : Γ'.get? q.name = .some s')
    (hf : s'.ty.follow q.path = .crossed m ps rest) :
    Γ.get? q.name = .some s' ∧ ¬ Γ.Lands p q.name := by
  obtain ⟨s, hs₀, ho, -, hw, -⟩ := h.slot hs
  obtain ⟨qs, hf₀, -⟩ := hw.crossed hf
  have hn : ¬ Γ.Lands p q.name := ha q.name ⟨q, s, m, qs, rest, hq, rfl, hs₀, hf₀⟩
  rw [ho hn]
  exact ⟨hs₀, hn⟩

/-- **A write behind a borrow makes the variables that it ends in wider, and leaves all others
alone.** -/
theorem of_write (ha : Γ.Apart p) (h₁ : Grows T (Γ.Lands p) Γ Γ₁)
    (hq : ReflTransGen Γ.Follows p q) (h : writeUpTo variance T n false Γ₁ q = .ok Γ') :
    Grows T (Γ.Lands p) Γ₁ Γ' := by
  -- each slot has grown from the one that was there when the write began
  have origin : ∀ {x s'}, GrownFrom T (Γ.Lands p) Γ₁ x s' → ∃ s, Γ.get? x = .some s ∧
      (¬ Γ.Lands p x → s' = s) ∧ s.ty.Widens T.defined s'.ty := by
    rintro x s' ⟨s, hs, ho, -, hw, -⟩
    obtain ⟨s₀, hs₀, ho₀, -, hw₀, -⟩ := h₁.slot hs
    exact ⟨s₀, hs₀, fun hx => (ho hx).trans (ho₀ hx), hw₀.trans hw⟩
  have hslots : Γ₁.Slots (GrownFrom T (Γ.Lands p) Γ₁) Γ' := by
    refine writeUpTo_slots (Q := ReflTransGen Γ.Follows p) (fun q s ps rest t hq hs hf ht => ?_)
      (fun Γ₂ q s old new h₂ hq hadm hf hn => ?_) ⟨fun _ => Iff.rfl, fun x s hs => ?_⟩ hq h
    · -- the next place is one of the ways from `p`
      obtain ⟨s₀, hs₀, ho, hw⟩ := origin hs
      obtain ⟨qs, hf₀, -⟩ := hw.crossed hf
      have hn : ¬ Γ.Lands p q.name := ha q.name ⟨q, s₀, true, qs, rest, hq, rfl, hs₀, hf₀⟩
      rw [ho hn] at hf
      exact hq.tail ⟨s₀, true, ps, rest, t, hs₀, hf, ht, rfl⟩
    · have hu : old.union T = .some new := hn.resolve_left (absurd ·.1 Bool.false_ne_true)
      obtain ⟨s₁, hs₁, ho, hl, hw, hbelow, hlend⟩ := h₂.slot _ _ hadm.slot
      have hwide : s.ty.Widens T.defined (s.ty.replaceAt q.path new) :=
        Ty.Widens.of_replaceAt hf (Ty.Widens.of_union hu).1
      have hup : s.ty.Under (s.ty.replaceAt q.path new) := .of_replaceAt hf (Ty.under_of_union hu).1
      refine ⟨s₁, hs₁, fun hx => absurd ?_ hx, hl, hw.trans hwide, hbelow.trans hup,
        fun m t ht => ?_⟩
      · obtain ⟨s₀, hs₀, -, hw₀⟩ := origin (h₂.slot _ _ hadm.slot)
        obtain ⟨u, hf₀, -⟩ := hw₀.reached hf
        exact ⟨q, s₀, u, hq, rfl, hs₀, hf₀⟩
      · exact (Ty.lends_of_put hf (.inr hu) ht).elim (hlend m t) .inr
    · exact ⟨s, hs, fun _ => rfl, rfl, .refl _, .refl _, fun _ _ => .inl⟩
  refine ⟨fun x hx => (hslots.names x).2 hx, fun x s hs => ?_⟩
  obtain ⟨s', hs', s₁, hs₁, hr⟩ := hslots.bound hs
  cases hs.symm.trans hs₁
  exact ⟨s', hs', hr⟩

/-- What is found everywhere is found there in a wider environment. -/
theorem everywhere_mono (ha : Γ.Apart p) (h₁ : Grows T (Γ.Lands p) Γ Γ₁)
    (h : Grows T (Γ.Lands p) Γ₁ Γ')
    (mono : ∀ u u' : Ty, u.Under u' → P u → P u')
    (hq : ReflTransGen Γ.Follows p q) (he : Γ₁.Everywhere T.defined P q) :
    Γ'.Everywhere T.defined P q := by
  induction he with
  | reached hs hf hu =>
    obtain ⟨s', hs', -, -, hw, hbelow, -⟩ := h.some _ _ hs
    rcases (hw _).of_reached hf with ⟨u', hf', -⟩ | ⟨hd, hf'⟩
    · obtain ⟨u, hfu, huu⟩ := hbelow.reached hf'
      cases hf.symm.trans hfu
      exact .reached hs' hf' (mono _ u' huu hu)
    · exact .moved hd hs' hf'
  | crossed hs hf _ ih =>
    -- the ways from here are those that there were at first
    obtain ⟨hs₀, hn⟩ := passed ha h₁ hq hs hf
    obtain ⟨s', hs', ho, -⟩ := h.some _ _ hs
    cases ho hn
    exact .crossed hs' hf fun t ht => ih t ht (hq.tail ⟨_, _, _, _, t, hs₀, hf, ht, rfl⟩)
  | moved hd hs hf =>
    obtain ⟨s', hs', -, -, hw, -⟩ := h.some _ _ hs
    exact .moved hd hs' ((hw _).of_shadowed hf)

/-- One target is written after the other, and what has been written to the first ones stays. -/
theorem everywhere_fold {qs : List Place} (ha : Γ.Apart p) (h₁ : Grows T (Γ.Lands p) Γ Γ₁)
    (mono : ∀ u u' : Ty, u.Under u' → P u → P u')
    (each : ∀ Δ q Δ', Grows T (Γ.Lands p) Γ Δ → ReflTransGen Γ.Follows p q →
      writeUpTo variance T n false Δ q = .ok Δ' → Δ'.Everywhere T.defined P q)
    (hq : ∀ q ∈ qs, ReflTransGen Γ.Follows p q)
    (h : qs.foldlM (writeUpTo variance T n false) Γ₁ = .ok Γ') :
    Grows T (Γ.Lands p) Γ₁ Γ' ∧ ∀ q ∈ qs, Γ'.Everywhere T.defined P q := by
  induction qs generalizing Γ₁ with
  | nil =>
    cases h
    exact ⟨refl _, nofun⟩
  | cons q qs ih =>
    rw [List.foldlM_cons, Traced.bind_eq_ok] at h
    obtain ⟨Γ₂, h₂, h⟩ := h
    have hq₁ := hq q List.mem_cons_self
    have hgrow : Grows T (Γ.Lands p) Γ₁ Γ₂ := of_write ha h₁ hq₁ h₂
    obtain ⟨hrest, hall⟩ := ih (h₁.trans hgrow) (fun r hr => hq r (List.mem_cons_of_mem _ hr)) h
    refine ⟨hgrow.trans hrest, fun r hr => ?_⟩
    rcases List.mem_cons.1 hr with rfl | hr
    · exact everywhere_mono ha (h₁.trans hgrow) hrest mono hq₁ (each _ _ _ h₁ hq₁ h₂)
    · exact hall r hr

/-- **What is written is found wherever it may have gone**: whatever `P` says of types above it. -/
theorem everywhere (ha : Γ.Apart p) (h₁ : Grows T (Γ.Lands p) Γ Γ₁)
    (mono : ∀ u u' : Ty, u.Under u' → P u → P u') (hP : P T)
    (hq : ReflTransGen Γ.Follows p q) (h : writeUpTo variance T n false Γ₁ q = .ok Γ') :
    Γ'.Everywhere T.defined P q := by
  induction n generalizing Γ₁ q Γ' with
  | zero => cases h
  | succ n ih =>
    obtain ⟨s, hadm, ⟨old, new, hf, rfl, ⟨⟨⟩, -⟩ | ⟨-, hu⟩⟩ | ⟨ps, rest, Γ₂, hf, hfold, rfl⟩⟩ :=
      writeUpTo_ok h
    · exact .reached (NameMap.get?_insert_self ..) (Ty.follow_replaceAt hf)
        (mono T new (Ty.under_of_union hu).2 hP)
    · obtain ⟨hs₀, hn⟩ := passed ha h₁ hq hadm.slot hf
      have hways : ∀ r ∈ ps.toList.map (·.extend rest), ReflTransGen Γ.Follows p r := by
        intro r hr
        obtain ⟨t, ht, rfl⟩ := List.mem_map.1 hr
        exact hq.tail ⟨s, true, ps, rest, t, hs₀, hf, ht, rfl⟩
      obtain ⟨hgrow, hall⟩ :=
        everywhere_fold ha h₁ mono (fun _ _ _ h₁ hq h => ih h₁ hq h) hways hfold
      -- the slot that is put back is still there
      have hs₂ : Γ₂.get? q.name = .some s := by
        obtain ⟨s₂, hs₂, ho, -⟩ := hgrow.some _ _ hadm.slot
        rw [hs₂, ho hn]
      rw [NameMap.insert_self hs₂]
      exact .crossed hs₂ hf fun t ht => hall _ (List.mem_map.2 ⟨t, ht, rfl⟩)

end Grows

end Env

end Ownership
