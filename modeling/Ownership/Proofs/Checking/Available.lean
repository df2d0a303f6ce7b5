import Ownership.Proofs.Checking.Apart

/-!
# Borrowed places can be read

A place can be borrowed if it can be read: nothing has been moved out of it, or from above it
(`Ty.Readable`). It stays so as long as it is borrowed, since no place that conflicts with it is
moved out or written to, and writes behind a borrow make types wider, but move nothing out.

* `Env.Conflict`: what is written next to a place leaves the place alone.
* `Checker.stable_available`: **every place that is borrowed can be read**, and what is evaluated is
  whole.
-/

namespace Ownership

open Relation

variable {c : Checker} {variance : Variance} {Γ Γ₁ Γ' : Env} {p q t : Place} {T U u old new : Ty}
variable {s s' : Slot} {m : Bool} {ps : PlaceSet} {π ρ rest : List Selector} {n : Nat}
variable {x : String}

namespace Ty

variable {t : Ty}

/-- **Another part leaves alone what lies apart from it.** -/
theorem follow_replaceAt_of_apart (hf : t.follow π = .reached old)
    (ha : Place.pathsMeet ρ π = false) : (t.replaceAt π new).follow ρ = t.follow ρ := by
  induction t, π, hf using reached_induction generalizing ρ with
  | here => cases ρ <;> cases ha
  | box t π hf ih =>
    cases ρ with
    | nil => cases ha
    | cons b ρ =>
      cases b with
      | deref => exact ih (by simpa [Place.pathsMeet] using ha)
      | index j => rfl
  | component ts i t π hi hf ih =>
    cases ρ with
    | nil => cases ha
    | cons b ρ =>
      cases b with
      | deref => rfl
      | index j =>
        show (compound (ts.modify i _)).follow (.index j :: ρ) = _
        simp only [follow, List.getElem?_modify]
        by_cases hij : i = j
        · subst hij
          have hpart : (t.replaceAt π new).follow ρ = t.follow ρ :=
            ih (by simpa [Place.pathsMeet] using ha)
          simpa [hi] using hpart
        · simp [hij]

/-! ### What can be read -/

/-- What the path leads to is whole, or lies behind a borrow. -/
def Readable (t : Ty) (π : List Selector) : Prop :=
  (∃ u, t.follow π = .reached u ∧ u.defined = true) ∨ ∃ m ps rest, t.follow π = .crossed m ps rest

/-- A part of a whole type is whole. -/
theorem readable_of_defined (hd : t.defined = true) :
    t.follow π ≠ .shadowed ∧ ∀ u, t.follow π = .reached u → u.defined = true := by
  induction π generalizing t with
  | nil =>
    rw [follow_nil]
    refine ⟨by simp, ?_⟩
    rintro _ ⟨⟩
    exact hd
  | cons a π ih =>
    cases t with
    | box t =>
      cases a with
      | deref => exact ih (t := t) hd
      | index i => simp [follow]
    | compound ts =>
      cases a with
      | deref => simp [follow]
      | index i =>
        simp only [follow]
        cases ht : ts[i]? with
        | none => simp
        | some v =>
          rw [defined, allDefined_eq, List.all_eq_true] at hd
          exact ih (hd v (List.mem_of_getElem? ht))
    | shadow => cases hd
    | _ => cases a <;> simp [follow]

namespace Readable

/-- Nothing has been moved out below what can be read. -/
theorem below (h : t.Readable π) (ρ : List Selector) :
    t.follow (π ++ ρ) ≠ .shadowed ∧ ∀ u, t.follow (π ++ ρ) = .reached u → u.defined = true := by
  rcases h with ⟨u, hf, hu⟩ | ⟨m, ps, rest, hf⟩
  · rw [follow_append_of_reached hf]
    exact readable_of_defined hu
  · rw [follow_append_of_crossed hf]
    exact ⟨nofun, nofun⟩

theorem wider (h : t.Readable π) (hw : Widens true t u) : u.Readable π := by
  have hwalk := hw π
  rcases h with ⟨v, hf, hv⟩ | ⟨m, ps, rest, hf⟩
  · rw [hf] at hwalk
    generalize hg : u.follow π = w at hwalk
    cases hwalk with
    | same => exact .inl ⟨v, hg, hv⟩
    | reached _ hd => exact .inl ⟨_, hg, hd rfl hv⟩
    | moved hm => cases hm
  · rw [hf] at hwalk
    generalize hg : u.follow π = w at hwalk
    cases hwalk with
    | same => exact .inr ⟨m, ps, rest, hg⟩
    | crossed => exact .inr ⟨m, _, rest, hg⟩
    | moved hm => cases hm

end Readable

end Ty

namespace Env

/-- The place is in scope and can be read. -/
def Readable (Γ : Env) (p : Place) : Prop := ∃ s, Γ.get? p.name = some s ∧ s.ty.Readable p.path

theorem readable_of_available (hs : Γ.get? p.name = some s)
    (h : availability Γ p false = .available) : Γ.Readable p := ⟨s, hs, availability_false hs h⟩

/-- **A place is left alone by what happens to another place**, unless the two conflict. -/
theorem Readable.insert (h : Γ.Readable t) (hs : Γ.get? p.name = some s)
    (hf : s.ty.follow p.path = .reached old) (hc : t.conflicts p = false) :
    Readable (Γ.insert p.name ⟨s.ty.replaceAt p.path new, s.lifetime⟩) t := by
  obtain ⟨s', hs', hr⟩ := h
  by_cases hn : t.name = p.name
  · rw [hn] at hs'
    cases hs.symm.trans hs'
    have hmeet : Place.pathsMeet t.path p.path = false := by simpa [Place.conflicts, hn] using hc
    refine ⟨_, by rw [hn, NameMap.get?_insert_self], ?_⟩
    rwa [Ty.Readable, Ty.follow_replaceAt_of_apart hf hmeet]
  · exact ⟨s', by rw [NameMap.get?_insert, if_neg hn]; exact hs', hr⟩

/-- Every place that a variable borrows can be read. -/
def LentReadable (Γ : Env) : Prop := ∀ x s m t, Γ.get? x = some s → s.ty.Lends m t → Γ.Readable t

/-- Nothing has been moved out below the place. -/
def Sound (Γ : Env) (p : Place) : Prop := ∀ s, Γ.get? p.name = some s →
  s.ty.follow p.path ≠ .shadowed ∧ ∀ u, s.ty.follow p.path = .reached u → u.defined = true

theorem Readable.sound (h : Γ.Readable t) (ρ : List Selector) : Γ.Sound (t.extend ρ) := by
  obtain ⟨s, hs, hr⟩ := h
  intro s' hs'
  cases hs.symm.trans hs'
  exact hr.below ρ

/-- What lies behind borrows of places that can be read can be read, too. -/
theorem Sound.of_follows (hΓ : Γ.LentReadable) (h : Γ.Follows p q) : Γ.Sound q := by
  obtain ⟨s, m, ps, rest, t, hs, hf, ht, rfl⟩ := h
  exact (hΓ _ s m t hs (Ty.lends_of_crossed hf ht)).sound rest

end Env

theorem unionOver_defined {f : Place → Except Violation Ty} {joined : Option Ty}
    {places : List Place} (h : unionOver f joined places = .ok T)
    (hj : ∀ u, joined = some u → u.defined = true)
    (hp : ∀ p ∈ places, ∀ u, f p = .ok u → u.defined = true) : T.defined = true :=
  unionOver_closed (Q := fun u => u.defined = true) Ty.defined_union h hj hp fun _ _ => rfl

/-- **The type of a place that can be read is whole.** -/
theorem typeUpTo_defined (hΓ : Γ.LentReadable) (hp : Γ.Sound p) (h : typeUpTo Γ n p = .ok T) :
    T.defined = true := by
  induction n generalizing p T with
  | zero => cases h
  | succ n ih =>
    obtain ⟨s, hs, hf | ⟨m, ps, rest, hf, h⟩⟩ := typeUpTo_ok h
    · exact (hp s hs).2 _ hf
    · refine unionOver_defined h (by simp) fun q hq u hu => ?_
      obtain ⟨t, ht, rfl⟩ := List.mem_map.1 hq
      exact ih (.of_follows hΓ ⟨s, m, ps, rest, t, hs, hf, ht, rfl⟩) hu

/-! ### Writes -/

/-- A write goes to a part of a variable, or makes variables wider that lie behind a borrow. -/
theorem write_cases (ha : Γ.Apart p) (h : write variance Γ p T true = .ok Γ') :
    ∃ s, Γ.get? p.name = some s ∧
      ((∃ old, s.ty.follow p.path = .reached old ∧
          Γ' = Γ.insert p.name ⟨s.ty.replaceAt p.path T, s.lifetime⟩) ∨
        (∃ ps rest, s.ty.follow p.path = .crossed true ps rest) ∧
          Env.Grows T (Γ.Lands p) Γ Γ') := by
  have hw := h
  rw [write] at h
  generalize crossings _ _ p = n at h
  cases n with
  | zero => cases h
  | succ n =>
    obtain ⟨s, hadm, ⟨old, new, hf, rfl, hnew⟩ | ⟨ps, rest, -, hf, -⟩⟩ := writeUpTo_ok h
    · obtain ⟨-, rfl⟩ := hnew.resolve_right (absurd ·.1 Bool.noConfusion)
      exact ⟨s, hadm.slot, .inl ⟨old, hf, rfl⟩⟩
    · rw [writeUpTo_crossed hadm.slot hf] at h
      exact ⟨s, hadm.slot, .inr ⟨⟨ps, rest, hf⟩, .of_write ha (.refl Γ) .refl h⟩⟩

/-! ### Programs -/

/-- **Every place that is borrowed can be read**, and what has been evaluated is whole. -/
def LentAvailable : Judgement := fun _ Γ T =>
  T.defined = true ∧ Γ.LentReadable ∧ ∀ m t, T.Lends m t → Γ.Readable t

namespace LentAvailable

variable {σ : String → Shape}

theorem unit (h : Γ.LentReadable) : LentAvailable σ Γ .unit :=
  ⟨rfl, h, fun _ _ hp => absurd hp Ty.not_lends_unit⟩

theorem empty : LentAvailable σ .empty .unit := .unit nofun

theorem read {kind : AccessKind} (h : LentAvailable σ Γ .unit)
    (hr : c.read Γ kind p = .ok (Γ', T)) : LentAvailable σ Γ' T := by
  obtain ⟨hkept, hlend⟩ := Checker.lends_of_read hr
  obtain ⟨s, hs, hav, ht, hcase⟩ := Checker.read_ok hr
  have hsound : Γ.Sound p := by
    have := (Env.readable_of_available hs hav).sound []
    rwa [Place.extend, List.append_nil] at this
  -- a place that is moved out is not borrowed
  have hreadable : ∀ {x s m t}, Γ.get? x = some s → s.ty.Lends m t → Env.Readable Γ' t := by
    intro x s' m t hs' hlent
    have hold := h.2.1 x s' m t hs' hlent
    rcases hcase with ⟨-, rfl⟩ | ⟨-, hw, u, hf, rfl⟩
    · exact hold
    · exact hold.insert hs hf (hlent.not_conflicts (Env.slot_not_prohibitsWriting hw hs'))
  refine ⟨typeUpTo_defined h.2.1 hsound ht, fun x s m t hs hlent => ?_, fun m t hlent => ?_⟩
  · obtain ⟨s', hs', hlent⟩ := hkept x s m t hs hlent
    exact hreadable hs' hlent
  · obtain ⟨x, s', hs', hlent⟩ := hlend m t hlent
    exact hreadable hs' hlent

theorem write (h : LentAvailable σ Γ T) (ha : Γ.Apart p) (hp : Γ.writeProhibited p = false)
    (hT : T.prohibitsWriting p = false) (hw : write variance Γ p T true = .ok Γ') :
    LentAvailable σ Γ' .unit := by
  obtain ⟨hd, hlent, hflight⟩ := h
  have hreadable : ∀ t, (∃ x s m, Γ.get? x = some s ∧ s.ty.Lends m t) ∨ (∃ m, T.Lends m t) →
      Env.Readable Γ' t := by
    intro t ht
    have hold : Γ.Readable t := by
      rcases ht with ⟨x, s, m, hs, ht⟩ | ⟨m, ht⟩
      · exact hlent x s m t hs ht
      · exact hflight m t ht
    obtain ⟨s, hs, ⟨old, hf, rfl⟩ | ⟨-, hgrow⟩⟩ := write_cases ha hw
    · -- what is written to is not borrowed
      refine hold.insert hs hf ?_
      rcases ht with ⟨x, s, m, hs, ht⟩ | ⟨m, ht⟩
      · exact ht.not_conflicts (Env.slot_not_prohibitsWriting hp hs)
      · exact ht.not_conflicts hT
    · obtain ⟨s₁, hs₁, hr⟩ := hold
      obtain ⟨s', hs', -, -, hwide, -⟩ := hgrow.some _ s₁ hs₁
      rw [hd] at hwide
      exact ⟨s', hs', hr.wider hwide⟩
  refine unit fun x s m t hs ht => hreadable t ?_
  rcases lends_of_write hw hs ht with ⟨s', hs', ht⟩ | ht
  · exact .inl ⟨x, s', m, hs', ht⟩
  · exact .inr ⟨m, ht⟩

end LentAvailable

/-- The judgement holds at every site of a program without extensions. -/
theorem Checker.stable_available {ok : Site → Prop} (hc : c.extensions = [])
    (hapart : ∀ Γ l sp p t s Γ₁ T U, ok ⟨Γ, l, .assign sp p t⟩ → Γ.get? p.name = some s →
      (c.apply Γ l t).result = .ok (Γ₁, T) → typeOf Γ₁ p = .ok U → Γ₁.Apart p) :
    Stable c ok LentAvailable where
  forget h := .unit h.2.1
  int h := ⟨rfl, h.2.1, fun _ _ hp => absurd hp Ty.not_lends_int⟩
  box h := ⟨h.1, h.2.1, fun m t hp => h.2.2 m t (Ty.lends_box.1 hp)⟩
  read _ h hr := h.read hr
  borrow _ h _ hb := by
    obtain ⟨s, hs, hav, -, -, rfl⟩ := Checker.borrow_ok hb
    refine ⟨rfl, h.2.1, fun m t hp => ?_⟩
    obtain ⟨rfl, rfl⟩ := Ty.lends_borrowOf.1 hp
    exact Env.readable_of_available hs hav
  bind _ h _ hΓ hT := by
    -- nothing is borrowed from the new variable
    have hold : ∀ {Γ : Env} {x t U l}, Γ.Readable t → t.name ≠ x →
        Env.Readable (Γ.insert x ⟨U, l⟩) t := by
      rintro Γ x t U l ⟨s, hs, hr⟩ hn
      exact ⟨s, by rw [NameMap.get?_insert, if_neg hn]; exact hs, hr⟩
    refine .unit fun y s m t hs ht => ?_
    rcases NameMap.get?_insert_some hs with ⟨rfl, rfl⟩ | ⟨-, hs⟩
    · exact hold (h.2.2 m t ht) (hT m t ht)
    · exact hold (h.2.1 y s m t hs ht) (hΓ y s m t hs ht)
  assign _ h _ hok hs hsource ha := by
    obtain ⟨hp, hT, hw⟩ := Checker.assign_ok ha
    obtain ⟨s, hadm⟩ := admits_of_write hw
    obtain ⟨current, ht, -⟩ := hadm.compatible
    exact h.write (hapart _ _ _ _ _ _ _ _ _ hok hs hsource ht) hp hT hw
  leave h hb := by
    -- what is still borrowed is still in scope
    have hold : ∀ {Γ : Env} {inner t}, Γ.Readable t →
        (∃ s, (Γ.dropLifetime inner).get? t.name = some s) → (Γ.dropLifetime inner).Readable t := by
      rintro Γ inner t ⟨s, hs, hr⟩ ⟨s', hs'⟩
      cases hs.symm.trans (Env.get?_dropLifetime.1 hs').1
      exact ⟨s, hs', hr⟩
    refine ⟨h.1, fun x s m t hs ht => ?_, fun m t ht => ?_⟩
    · exact hold (h.2.1 x s m t (Env.get?_dropLifetime.1 hs).1 ht) (hb.1 x s m t hs ht)
    · exact hold (h.2.2 m t ht) (hb.2 m t ht)
  extended he := absurd hc he

end Ownership
