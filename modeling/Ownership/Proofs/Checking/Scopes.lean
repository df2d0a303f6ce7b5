import Ownership.Proofs.Checking.Writes

/-!
# Scopes

Every place that is borrowed is in scope, and lives as long as what borrows it
(`Env.Scoped`). Operands are parked under temporary names directly under a root. Nothing can be
borrowed from there, and what they borrow lives on because nothing in scope before a term is gone
after it (`Env.Extends`).

* `Env.Scoped.leave`: **at the end of a block nothing borrows from what is forgotten.**
* `Env.Scoped.write`: a write lends nothing for longer than it lives.
* `Env.Parks.release`: what has been parked can be given back.
-/

namespace Ownership

variable {variance : Variance} {Γ Γ₁ Γ' J lhs rhs : Env} {l inner : Lifetime}
variable {K N N' : List String} {T U T₁ T₂ : Ty} {t : Term} {s s' : Slot}
variable {m : Bool} {p q : Place} {x k : String} {n : Nat}
variable {P : Parked} {strong : Bool}

namespace Env

/-- **What is borrowed is in scope**, in an environment under `l` with operands parked under the
names `K`, and in a type `T` of what is evaluated there. -/
structure Scoped (l : Lifetime) (K : List String) (Γ : Env) (T : Ty) : Prop where
  level : ∀ x s, Γ.get? x = some s → l.within s.lifetime = true
  closed : ∀ x s m p, Γ.get? x = some s → s.ty.Lends m p → p.name ∉ K ∧
    ∃ s', Γ.get? p.name = some s' ∧ (x ∉ K → s.lifetime.within s'.lifetime = true)
  flight : ∀ m p, T.Lends m p → p.name ∉ K ∧ ∃ s', Γ.get? p.name = some s'
  parked : ∀ k ∈ K, (∃ i, k = temporary i) ∧ ∃ s, Γ.get? k = some s ∧ s.lifetime.isRoot = true

/-- **The environment goes on from** `Γ`, with the same variables and new ones under `l`, which are
among `N`. What is parked under `K` has not got wider. -/
structure Extends (l : Lifetime) (K N : List String) (Γ Γ' : Env) : Prop where
  kept : ∀ x s, Γ.get? x = some s → ∃ s', Γ'.get? x = some s' ∧ s'.lifetime = s.lifetime
  parked : ∀ k ∈ K, ∀ s s' m p, Γ.get? k = some s → Γ'.get? k = some s' → s'.ty.Lends m p →
    s.ty.Lends m p
  fresh : ∀ x s', Γ'.get? x = some s' → Γ.get? x = none → x ∈ N ∧ s'.lifetime = l

/-- All that is borrowed is from variables of `Γ`. -/
def Borrows (Γ Γ' : Env) (T : Ty) : Prop :=
  (∀ x s m p, Γ'.get? x = some s → s.ty.Lends m p → ∃ s', Γ.get? p.name = some s') ∧
    ∀ m p, T.Lends m p → ∃ s', Γ.get? p.name = some s'

/-- Another slot of the same lifetime leaves all lifetimes as they are. -/
theorem get?_insert_lifetime {k : Lifetime} (hold : ∀ s, Γ.get? x = some s → s.lifetime = k)
    {y : String} (hs : Γ.get? y = some s) :
    ∃ s', (Γ.insert x ⟨U, k⟩).get? y = some s' ∧ s'.lifetime = s.lifetime := by
  rw [NameMap.get?_insert]
  split
  · rename_i e
    subst e
    exact ⟨_, rfl, (hold s hs).symm⟩
  · exact ⟨s, hs, rfl⟩

namespace Extends

theorem refl (Γ : Env) : Extends l K [] Γ Γ where
  kept := fun _ s hs => ⟨s, hs, rfl⟩
  parked := by
    intro k _ s s' m p hs hs' hp
    cases hs.symm.trans hs'
    exact hp
  fresh := by
    intro x s hs hn
    rw [hs] at hn
    cases hn

theorem mono (h : Extends l K N Γ Γ') (hN : ∀ x ∈ N, x ∈ N') : Extends l K N' Γ Γ' :=
  ⟨h.kept, h.parked, fun x s hs hn => (h.fresh x s hs hn).imp_left (hN x)⟩

theorem trans (h : Extends l K N Γ Γ₁) (h' : Extends l K N' Γ₁ Γ') :
    Extends l K (N ++ N') Γ Γ' where
  kept := by
    intro x s hs
    obtain ⟨s₁, hs₁, e₁⟩ := h.kept x s hs
    obtain ⟨s', hs', e'⟩ := h'.kept x s₁ hs₁
    exact ⟨s', hs', e'.trans e₁⟩
  parked := by
    intro k hk s s' m p hs hs' hp
    obtain ⟨s₁, hs₁, -⟩ := h.kept k s hs
    exact h.parked k hk s s₁ m p hs hs₁ (h'.parked k hk s₁ s' m p hs₁ hs' hp)
  fresh := by
    intro x s' hs' hn
    cases hx : Γ₁.get? x with
    | none => exact (h'.fresh x s' hs' hx).imp_left (List.mem_append_right _)
    | some s₁ =>
      obtain ⟨s₂, hs₂, e⟩ := h'.kept x s₁ hx
      cases hs'.symm.trans hs₂
      rw [e]
      exact (h.fresh x s₁ hx hn).imp_left (List.mem_append_left _)

/-- A variable that is not parked gets another type. -/
theorem insert {k : Lifetime} (h : Extends l K N Γ Γ₁) (hx : x ∉ K) (hN : ∀ y ∈ N, y ∈ N')
    (hold : ∀ s, Γ₁.get? x = some s → s.lifetime = k)
    (hnew : Γ.get? x = none → x ∈ N' ∧ k = l) : Extends l K N' Γ (Γ₁.insert x ⟨U, k⟩) where
  kept := by
    intro y s hy
    obtain ⟨s₁, hs₁, e₁⟩ := h.kept y s hy
    obtain ⟨s₂, hs₂, e₂⟩ := get?_insert_lifetime hold hs₁
    exact ⟨s₂, hs₂, e₂.trans e₁⟩
  parked := by
    intro k hk s s' m p hs hs' hp
    rcases NameMap.get?_insert_some hs' with ⟨rfl, rfl⟩ | ⟨-, hs'⟩
    · exact absurd hk hx
    · exact h.parked k hk s s' m p hs hs' hp
  fresh := by
    intro y s' hy hn
    rcases NameMap.get?_insert_some hy with ⟨rfl, rfl⟩ | ⟨-, hy⟩
    · exact hnew hn
    · exact (h.fresh y s' hy hn).imp_left (hN y)

end Extends

namespace Scoped

/-- What has been evaluated is dropped. -/
theorem forget (h : Scoped l K Γ T) : Scoped l K Γ .unit :=
  ⟨h.level, h.closed, fun _ _ hp => absurd hp Ty.not_lends_unit, h.parked⟩

/-- What is evaluated borrows nothing but what some variable borrows. -/
theorem result (h : Scoped l K Γ T)
    (hU : ∀ m p, U.Lends m p → ∃ x s, Γ.get? x = some s ∧ s.ty.Lends m p) : Scoped l K Γ U where
  level := h.level
  closed := h.closed
  flight := by
    intro m p hp
    obtain ⟨x, s, hs, hp⟩ := hU m p hp
    obtain ⟨hk, s', hs', -⟩ := h.closed x s m p hs hp
    exact ⟨hk, s', hs'⟩
  parked := h.parked

theorem borrows (h : Scoped l K Γ T) : Γ.Borrows Γ T := by
  refine ⟨fun x s m p hs hp => ?_, fun m p hp => (h.flight m p hp).2⟩
  obtain ⟨-, s', hs', -⟩ := h.closed x s m p hs hp
  exact ⟨s', hs'⟩

/-- A block is entered. -/
theorem enter (h : Scoped l K Γ T) (hi : inner.parent? = some l) : Scoped inner K Γ T := by
  obtain ⟨i, rfl⟩ := Lifetime.eq_inside hi
  exact ⟨fun x s hs => by simp [Lifetime.within, h.level x s hs], h.closed, h.flight, h.parked⟩

/-- A place is borrowed. -/
theorem borrow (h : Scoped l K Γ T) (hs : Γ.get? p.name = some s) (hp : p.name ∉ K) :
    Scoped l K Γ (.borrowOf m p) where
  level := h.level
  closed := h.closed
  flight := by
    intro k q hq
    obtain ⟨-, rfl⟩ := Ty.lends_borrowOf.1 hq
    exact ⟨hp, s, hs⟩
  parked := h.parked

/-- A variable that is not parked gets another type. What this borrows lives long enough. -/
theorem insert {k : Lifetime} (h : Scoped l K Γ T) (hx : x ∉ K) (hl : l.within k = true)
    (hold : ∀ s, Γ.get? x = some s → s.lifetime = k)
    (hU : ∀ m p, U.Lends m p →
      p.name ∉ K ∧ ∃ s', Γ.get? p.name = some s' ∧ k.within s'.lifetime = true) :
    Scoped l K (Γ.insert x ⟨U, k⟩) T := by
  refine ⟨fun y s' hy => ?_, fun y s' m p hy hp => ?_, fun m p hp => ?_, fun k hk => ?_⟩
  · rcases NameMap.get?_insert_some hy with ⟨rfl, rfl⟩ | ⟨-, hy⟩
    · exact hl
    · exact h.level y s' hy
  · have hs' : p.name ∉ K ∧ ∃ s₁, Γ.get? p.name = some s₁ ∧
        (y ∉ K → s'.lifetime.within s₁.lifetime = true) := by
      rcases NameMap.get?_insert_some hy with ⟨rfl, rfl⟩ | ⟨-, hy⟩
      · obtain ⟨hp, s₁, hs₁, hw⟩ := hU m p hp
        exact ⟨hp, s₁, hs₁, fun _ => hw⟩
      · exact h.closed y s' m p hy hp
    obtain ⟨hp, s₁, hs₁, hw⟩ := hs'
    obtain ⟨s₂, hs₂, e⟩ := get?_insert_lifetime hold hs₁
    exact ⟨hp, s₂, hs₂, fun hy => by rw [e]; exact hw hy⟩
  · obtain ⟨hp, s₁, hs₁⟩ := h.flight m p hp
    obtain ⟨s₂, hs₂, -⟩ := get?_insert_lifetime hold hs₁
    exact ⟨hp, s₂, hs₂⟩
  · obtain ⟨ht, s₁, hs₁, hr⟩ := h.parked k hk
    obtain ⟨s₂, hs₂, e⟩ := get?_insert_lifetime hold hs₁
    exact ⟨ht, s₂, hs₂, by rw [e, hr]⟩

/-- A variable gets a type that lends no more. -/
theorem strike (h : Scoped l K Γ T) (hs : Γ.get? x = some s) (hx : x ∉ K)
    (hU : ∀ m p, U.Lends m p → s.ty.Lends m p) : Scoped l K (Γ.insert x ⟨U, s.lifetime⟩) T := by
  refine h.insert hx (h.level x s hs) (fun s' hs' => by cases hs.symm.trans hs'; rfl)
    fun m p hp => ?_
  obtain ⟨hp, s', hs', hw⟩ := h.closed x s m p hs (hU m p hp)
  exact ⟨hp, s', hs', hw hx⟩

/-- **A variable is declared.** If the name has been bound on the way from `Γ`, this was done under
the same lifetime. -/
theorem bind (h : Scoped l K Γ₁ T) (he : Extends l K N Γ Γ₁) (hx : Γ.get? x = none) (hk : x ∉ K) :
    Scoped l K (Γ₁.insert x ⟨T, l⟩) .unit := by
  refine (h.insert hk (Lifetime.within_self l) (fun s hs => (he.fresh x s hs hx).2)
    fun m p hp => ?_).forget
  obtain ⟨hp, s', hs'⟩ := h.flight m p hp
  exact ⟨hp, s', hs', h.level _ s' hs'⟩

/-- **A block is left.** Nothing borrows from the variables that are forgotten. -/
theorem leave (h : Scoped l K Γ T) (hi : inner.parent? = some l) (h₁ : Scoped inner K Γ₁ U)
    (he : Extends inner K N Γ Γ₁) (hw : Γ₁.within U l = true) :
    Scoped l K (Γ₁.dropLifetime inner) U ∧ Extends l K [] Γ (Γ₁.dropLifetime inner) := by
  obtain ⟨i, rfl⟩ := Lifetime.eq_inside hi
  -- what lives longer than the block stays
  have stays : ∀ {k : Lifetime}, l.within k = true → k ≠ .inside i l := by
    rintro k hk rfl
    rw [Lifetime.not_within_inside] at hk
    cases hk
  have outside : ∀ {k : Lifetime}, (Lifetime.inside i l).within k = true → k ≠ .inside i l →
      l.within k = true := by
    intro k hk hne
    simp only [Lifetime.within, Bool.or_eq_true, beq_iff_eq] at hk
    exact hk.resolve_left fun e => hne e.symm
  have kept : ∀ x s, Γ.get? x = some s →
      ∃ s', (Γ₁.dropLifetime (.inside i l)).get? x = some s' ∧ s'.lifetime = s.lifetime := by
    intro x s hs
    obtain ⟨s', hs', e⟩ := he.kept x s hs
    exact ⟨s', get?_dropLifetime.2 ⟨hs', e ▸ stays (h.level x s hs)⟩, e⟩
  refine ⟨⟨fun x s hx => ?_, fun x s m p hx hp => ?_, fun m p hp => ?_, fun k hk => ?_⟩, kept,
    fun k hk s s' m p hs hs' hp => ?_, fun x s' hs' hn => ?_⟩
  · obtain ⟨hx, hne⟩ := get?_dropLifetime.1 hx
    exact outside (h₁.level x s hx) hne
  · obtain ⟨hx, hne⟩ := get?_dropLifetime.1 hx
    obtain ⟨hp', s', hs', hlives⟩ := h₁.closed x s m p hx hp
    refine ⟨hp', s', get?_dropLifetime.2 ⟨hs', ?_⟩, hlives⟩
    by_cases hk : x ∈ K
    · -- what is parked borrows from variables that were there before the block
      obtain ⟨-, s₀, hs₀, -⟩ := h.parked x hk
      obtain ⟨-, s₁, hs₁, -⟩ := h.closed x s₀ m p hs₀ (he.parked x hk s₀ s m p hs₀ hx hp)
      obtain ⟨s₂, hs₂, e⟩ := he.kept _ s₁ hs₁
      cases hs'.symm.trans hs₂
      exact e ▸ stays (h.level _ s₁ hs₁)
    · exact stays (Lifetime.within_trans (outside (h₁.level x s hx) hne) (hlives hk))
  · obtain ⟨hp', -⟩ := h₁.flight m p hp
    obtain ⟨s', hs', hlives⟩ := within_ok hw hp.borrowed
    exact ⟨hp', s', get?_dropLifetime.2 ⟨hs', stays hlives⟩⟩
  · obtain ⟨ht, s, hs, hr⟩ := h₁.parked k hk
    refine ⟨ht, s, get?_dropLifetime.2 ⟨hs, fun e => ?_⟩, hr⟩
    rw [e] at hr
    cases hr
  · exact he.parked k hk s s' m p hs (get?_dropLifetime.1 hs').1 hp
  · obtain ⟨hs', hne⟩ := get?_dropLifetime.1 hs'
    exact absurd (he.fresh x s' hs' hn).2 hne

/-- What the slot of `x` lends it has lent in `Γ`, or it is lent by `T` and lives as long as the
slot. What is parked under `K` is as it was. -/
def Rewritten (K : List String) (Γ : Env) (T : Ty) (x : String) (s' : Slot) : Prop :=
  ∃ s, Γ.get? x = some s ∧ s'.lifetime = s.lifetime ∧ (x ∈ K → s' = s) ∧
    ∀ m q, s'.ty.Lends m q → s.ty.Lends m q ∨
      T.Lends m q ∧ ∃ s₁, Γ.get? q.name = some s₁ ∧ s.lifetime.within s₁.lifetime = true

/-- Nothing that is parked is borrowed after a write. -/
theorem Rewritten.unparked (hs : Rewritten K Γ T x s') (h : Scoped l K Γ T)
    (hq : s'.ty.Lends m q) : q.name ∉ K := by
  obtain ⟨s, hs, -, -, hlend⟩ := hs
  rcases hlend m q hq with hq | ⟨hq, -⟩
  · exact (h.closed x s m q hs hq).1
  · exact (h.flight m q hq).1

theorem rewritten_of_write (h : Scoped l K Γ T) (hp : p.name ∉ K)
    (hw : Ownership.write variance Γ p T strong = .ok Γ') : Γ.Slots (Rewritten K Γ T) Γ' := by
  refine writeUpTo_slots (Q := fun q => q.name ∉ K) (fun q s ps rest t _ hs hf ht => ?_)
    (fun Γ₁ q s old new h₁ hq hadm hf hnew => ?_)
    ⟨fun _ => Iff.rfl, fun x s hs => ⟨s, hs, rfl, fun _ => rfl, fun _ _ => .inl⟩⟩ hp hw
  · show t.name ∉ K
    exact hs.unparked h (Ty.lends_of_crossed hf ht)
  · obtain ⟨s₀, hs₀, e, -, hlend⟩ := h₁.slot _ _ hadm.slot
    refine ⟨s₀, hs₀, e, fun hk => absurd hk hq, fun m r hr => ?_⟩
    rcases Ty.lends_of_put hf (hnew.imp_left And.right) hr with hr | hr
    · exact hlend m r hr
    · -- the write has been tested against the lifetime of the slot
      obtain ⟨s₁, hs₁, hlives⟩ := within_ok hadm.within hr.borrowed
      obtain ⟨s₂, hs₂, e₂, -⟩ := h₁.slot _ _ hs₁
      exact .inr ⟨hr, s₂, hs₂, by rw [← e, ← e₂, hlives]⟩

/-- **A value is written.** It lives long enough wherever it goes. -/
theorem write (h : Scoped l K Γ T) (hp : p.name ∉ K)
    (hw : write variance Γ p T strong = .ok Γ') :
    Scoped l K Γ' .unit ∧ Extends l K [] Γ Γ' := by
  have hslots : Γ.Slots (Rewritten K Γ T) Γ' := rewritten_of_write h hp hw
  have kept : ∀ x s, Γ.get? x = some s → ∃ s', Γ'.get? x = some s' ∧ s'.lifetime = s.lifetime ∧
      (x ∈ K → s' = s) := by
    intro x s hs
    obtain ⟨s', hs', s₁, hs₁, e, hk, -⟩ := hslots.bound hs
    cases hs.symm.trans hs₁
    exact ⟨s', hs', e, hk⟩
  refine ⟨⟨fun x s' hx => ?_, fun x s' m q hx hq => ⟨(hslots.slot x s' hx).unparked h hq, ?_⟩,
    fun m q hq => absurd hq Ty.not_lends_unit, fun k hk => ?_⟩,
    fun x s hs => ?_, fun k hk s s' m q hs hs' hq => ?_, fun x s' hs' hn => ?_⟩
  · obtain ⟨s, hs, e, -⟩ := hslots.slot x s' hx
    exact e ▸ h.level x s hs
  · obtain ⟨s, hs, e, -, hlend⟩ := hslots.slot x s' hx
    have target : ∃ s₁, Γ.get? q.name = some s₁ ∧
        (x ∉ K → s.lifetime.within s₁.lifetime = true) := by
      rcases hlend m q hq with hq | ⟨-, s₁, hs₁, hlives⟩
      · exact (h.closed x s m q hs hq).2
      · exact ⟨s₁, hs₁, fun _ => hlives⟩
    obtain ⟨s₁, hs₁, hlives⟩ := target
    obtain ⟨s₂, hs₂, e₂, -⟩ := kept _ s₁ hs₁
    exact ⟨s₂, hs₂, fun hx => by rw [e, e₂, hlives hx]⟩
  · obtain ⟨ht, s, hs, hr⟩ := h.parked k hk
    obtain ⟨s', hs', e, -⟩ := kept k s hs
    exact ⟨ht, s', hs', by rw [e, hr]⟩
  · obtain ⟨s', hs', e, -⟩ := kept x s hs
    exact ⟨s', hs', e⟩
  · obtain ⟨s₁, hs₁, -, e⟩ := kept k s hs
    cases hs'.symm.trans hs₁
    rwa [e hk] at hq
  · rw [(hslots.names x).2 hn] at hs'
    cases hs'

/-- **Two arms are merged.** -/
theorem merge (h₁ : Scoped l K lhs T₁) (h₂ : Scoped l K rhs T₂) (he₁ : Extends l K N Γ lhs)
    (he₂ : Extends l K N' Γ rhs) (hj : join variance lhs rhs = .ok J) (hu : T₁.union T₂ = some T) :
    Scoped l K J T ∧ Extends l K N Γ J := by
  -- a variable of one of the arms is one of the join, with the same lifetime
  have left : ∀ {x s}, lhs.get? x = some s → ∃ s', J.get? x = some s' ∧
      s'.lifetime = s.lifetime := by
    intro x s hs
    obtain ⟨r, t, -, -, -, -, hJ⟩ := (join_ok hj).2 x s hs
    exact ⟨_, hJ, rfl⟩
  have right : ∀ {x s}, rhs.get? x = some s → ∃ s', J.get? x = some s' ∧
      s'.lifetime = s.lifetime := by
    intro x s hs
    obtain ⟨s₁, t, -, -, -, -, hJ⟩ := joined_of_right hj hs
    exact ⟨_, hJ, rfl⟩
  refine ⟨⟨fun x s hs => ?_, fun x s m p hs hp => ?_, fun m p hp => ?_, fun k hk => ?_⟩,
    fun x s hs => ?_, fun k hk s s' m p hs hs' hp => ?_, fun x s' hs' hn => ?_⟩
  · obtain ⟨s₁, -, hs₁, -, e, -⟩ := joined_of_join hj hs
    exact e ▸ h₁.level x s₁ hs₁
  · obtain ⟨s₁, s₂, hs₁, hs₂, e₁, e₂, hunion⟩ := joined_of_join hj hs
    rcases (Ty.lends_union hunion).1 hp with hp | hp
    · obtain ⟨hk, s', hs', hw⟩ := h₁.closed x s₁ m p hs₁ hp
      obtain ⟨s'', hs'', e⟩ := left hs'
      exact ⟨hk, s'', hs'', fun hx => by rw [e₁, e, hw hx]⟩
    · obtain ⟨hk, s', hs', hw⟩ := h₂.closed x s₂ m p hs₂ hp
      obtain ⟨s'', hs'', e⟩ := right hs'
      exact ⟨hk, s'', hs'', fun hx => by rw [e₂, e, hw hx]⟩
  · rcases (Ty.lends_union hu).1 hp with hp | hp
    · obtain ⟨hk, s', hs'⟩ := h₁.flight m p hp
      obtain ⟨s'', hs'', -⟩ := left hs'
      exact ⟨hk, s'', hs''⟩
    · obtain ⟨hk, s', hs'⟩ := h₂.flight m p hp
      obtain ⟨s'', hs'', -⟩ := right hs'
      exact ⟨hk, s'', hs''⟩
  · obtain ⟨ht, s, hs, hr⟩ := h₁.parked k hk
    obtain ⟨s', hs', e⟩ := left hs
    exact ⟨ht, s', hs', by rw [e, hr]⟩
  · obtain ⟨s₁, hs₁, e₁⟩ := he₁.kept x s hs
    obtain ⟨s', hs', e⟩ := left hs₁
    exact ⟨s', hs', e.trans e₁⟩
  · obtain ⟨s₁, s₂, hs₁, hs₂, -, -, hunion⟩ := joined_of_join hj hs'
    exact ((Ty.lends_union hunion).1 hp).elim (he₁.parked k hk s s₁ m p hs hs₁)
      (he₂.parked k hk s s₂ m p hs hs₂)
  · obtain ⟨s₁, -, hs₁, -, e, -⟩ := joined_of_join hj hs'
    exact e ▸ he₁.fresh x s₁ hs₁ hn

end Scoped

/-! ### Parked operands -/

/-- An operand is parked under a fresh name. -/
theorem Scoped.park (h : Scoped l K Γ T) :
    Scoped l (K ++ [Γ.freshName]) (Γ.insert Γ.freshName ⟨T, l.global⟩) .unit := by
  obtain ⟨hi, hnew⟩ := Γ.freshName_spec
  -- what is bound keeps its slot, and has another name
  have other : ∀ {y s}, Γ.get? y = some s → y ≠ Γ.freshName ∧
      (Γ.insert Γ.freshName ⟨T, l.global⟩).get? y = some s := by
    intro y s hy
    have hne : y ≠ Γ.freshName := by
      rintro rfl
      rw [hnew] at hy
      cases hy
    exact ⟨hne, by rw [NameMap.get?_insert, if_neg hne, hy]⟩
  have target : ∀ {q : Place}, q.name ∉ K → (∃ s, Γ.get? q.name = some s) →
      q.name ∉ K ++ [Γ.freshName] := by
    rintro q hq ⟨s, hs⟩ hm
    rcases List.mem_append.1 hm with hm | hm
    · exact hq hm
    · exact (other hs).1 (List.mem_singleton.1 hm)
  refine ⟨fun y s hy => ?_, fun y s m p hy hp => ?_, fun m p hp => absurd hp Ty.not_lends_unit,
    fun k hk => ?_⟩
  · rcases NameMap.get?_insert_some hy with ⟨-, rfl⟩ | ⟨-, hy⟩
    · exact Lifetime.within_global l
    · exact h.level y s hy
  · rcases NameMap.get?_insert_some hy with ⟨rfl, rfl⟩ | ⟨-, hy⟩
    · obtain ⟨hk, s', hs'⟩ := h.flight m p hp
      refine ⟨target hk ⟨s', hs'⟩, s', (other hs').2, fun hn => absurd ?_ hn⟩
      exact List.mem_append_right _ (List.mem_singleton.2 rfl)
    · obtain ⟨hk, s', hs', hw⟩ := h.closed y s m p hy hp
      exact ⟨target hk ⟨s', hs'⟩, s', (other hs').2,
        fun hn => hw fun hk => hn (List.mem_append_left _ hk)⟩
  · rcases List.mem_append.1 hk with hk | hk
    · obtain ⟨ht, s, hs, hr⟩ := h.parked k hk
      exact ⟨ht, s, (other hs).2, hr⟩
    · cases List.mem_singleton.1 hk
      exact ⟨hi, _, NameMap.get?_insert_self .., Lifetime.global_isRoot l⟩

/-- **Operands have been parked** since `Γ`. -/
structure Parks (l : Lifetime) (K N : List String) (Γ : Env) (P : Parked) : Prop where
  scope : Scoped l (K ++ P.names) P.env .unit
  fresh : ∀ n ∈ P.names, Γ.get? n = none
  goesOn : Extends l K N Γ (P.env.eraseAll P.names)

namespace Parks

theorem nil (h : Scoped l K Γ T) : Parks l K [] Γ ⟨Γ, []⟩ where
  scope := by
    rw [List.append_nil]
    exact h.forget
  fresh := nofun
  goesOn := .refl Γ

/-- The variables of `Γ` are still bound. -/
theorem kept (h : Parks l K N Γ P) (x : String) (s : Slot) (hs : Γ.get? x = some s) :
    ∃ s', P.env.get? x = some s' ∧ s'.lifetime = s.lifetime := by
  obtain ⟨s', hs', e⟩ := h.goesOn.kept x s hs
  exact ⟨s', (NameMap.get?_eraseAll_some.1 hs').2, e⟩

/-- One more operand is parked. -/
theorem park (h : Parks l K N Γ P) (h₁ : Scoped l (K ++ P.names) Γ₁ T)
    (he : Extends l (K ++ P.names) N' P.env Γ₁) :
    Parks l K (N ++ N') Γ (Parked.park l P.names (Γ₁, T)) := by
  have hnew := Γ₁.freshName_spec.2
  -- a variable is in `Γ₁` what it was in `Γ`
  have goesOn : ∀ {x s}, Γ.get? x = some s → ∃ s₁ s₂, (P.env.eraseAll P.names).get? x = some s₁ ∧
      x ∉ P.names ∧ P.env.get? x = some s₁ ∧ Γ₁.get? x = some s₂ ∧ s₂.lifetime = s.lifetime := by
    intro x s hs
    obtain ⟨s₁, hs₁, e₁⟩ := h.goesOn.kept x s hs
    obtain ⟨hx, hs₁'⟩ := NameMap.get?_eraseAll_some.1 hs₁
    obtain ⟨s₂, hs₂, e₂⟩ := he.kept x s₁ hs₁'
    exact ⟨s₁, s₂, hs₁, hx, hs₁', hs₂, e₂.trans e₁⟩
  have final : ∀ {x s}, ((Γ₁.insert Γ₁.freshName ⟨T, l.global⟩).eraseAll
      (P.names ++ [Γ₁.freshName])).get? x = some s ↔ x ∉ P.names ∧ Γ₁.get? x = some s := by
    intro x s
    rw [NameMap.get?_eraseAll_some, List.mem_append, List.mem_singleton, not_or]
    constructor
    · rintro ⟨⟨hx, hne⟩, hs⟩
      rw [NameMap.get?_insert, if_neg hne] at hs
      exact ⟨hx, hs⟩
    · rintro ⟨hx, hs⟩
      have hne : x ≠ Γ₁.freshName := by
        rintro rfl
        rw [hnew] at hs
        cases hs
      exact ⟨⟨hx, hne⟩, by rw [NameMap.get?_insert, if_neg hne, hs]⟩
  refine ⟨?_, fun n hn => ?_, ⟨fun x s hs => ?_, fun k hk s s' m p hs hs' hp => ?_,
    fun x s' hs' hn => ?_⟩⟩
  · have := h₁.park
    rw [List.append_assoc] at this
    exact this
  · rcases List.mem_append.1 hn with hn | hn
    · exact h.fresh n hn
    · cases List.mem_singleton.1 hn
      cases hx : Γ.get? Γ₁.freshName with
      | none => rfl
      | some s =>
        obtain ⟨-, s₂, -, -, -, hs₂, -⟩ := goesOn hx
        rw [hnew] at hs₂
        cases hs₂
  · obtain ⟨-, s₂, -, hx, -, hs₂, e⟩ := goesOn hs
    exact ⟨s₂, final.2 ⟨hx, hs₂⟩, e⟩
  · obtain ⟨s₁, -, hs₁, -, hs₁', -⟩ := goesOn hs
    have hp₁ := he.parked k (List.mem_append_left _ hk) s₁ s' m p hs₁' (final.1 hs').2 hp
    exact h.goesOn.parked k hk s s₁ m p hs hs₁ hp₁
  · obtain ⟨hx, hs'⟩ := final.1 hs'
    cases hp : P.env.get? x with
    | none => exact (he.fresh x s' hs' hp).imp_left (List.mem_append_right _)
    | some s₁ =>
      obtain ⟨s₂, hs₂, e⟩ := he.kept x s₁ hp
      cases hs'.symm.trans hs₂
      rw [e]
      exact (h.goesOn.fresh x s₁ (NameMap.get?_eraseAll_some.2 ⟨hx, hp⟩) hn).imp_left
        (List.mem_append_left _)

/-- **The operands are taken from where they are parked.** -/
theorem release (h : Parks l K N Γ P) (h₀ : Scoped l K Γ U) :
    Scoped l K P.release.1 (.compound P.release.2) ∧ Extends l K N Γ P.release.1 := by
  refine ⟨⟨fun x s hs => ?_, fun x s m p hs hp => ?_, fun m p hp => ?_, fun k hk => ?_⟩, h.goesOn⟩
  · exact h.scope.level x s (NameMap.get?_eraseAll_some.1 hs).2
  · obtain ⟨hx, hs⟩ := NameMap.get?_eraseAll_some.1 hs
    obtain ⟨hk, s', hs', hw⟩ := h.scope.closed x s m p hs hp
    rw [List.mem_append, not_or] at hk
    refine ⟨hk.1, s', NameMap.get?_eraseAll_some.2 ⟨hk.2, hs'⟩, fun hxK => hw ?_⟩
    rw [List.mem_append, not_or]
    exact ⟨hxK, hx⟩
  · -- a component has the type of what was parked
    obtain ⟨t, ht, hp⟩ := Ty.lends_compound.1 hp
    obtain ⟨n, -, hn⟩ := List.mem_filterMap.1 ht
    obtain ⟨s, hs, rfl⟩ := Option.map_eq_some_iff.1 hn
    obtain ⟨hk, s', hs', -⟩ := h.scope.closed n s m p hs hp
    rw [List.mem_append, not_or] at hk
    exact ⟨hk.1, s', NameMap.get?_eraseAll_some.2 ⟨hk.2, hs'⟩⟩
  · obtain ⟨ht, s, hs, hr⟩ := h.scope.parked k (List.mem_append_left _ hk)
    refine ⟨ht, s, NameMap.get?_eraseAll_some.2 ⟨fun hn => ?_, hs⟩, hr⟩
    obtain ⟨-, s₀, hs₀, -⟩ := h₀.parked k hk
    rw [h.fresh k hn] at hs₀
    cases hs₀

end Parks

end Env

end Ownership
