import Ownership.Proofs.Soundness.Spread
import Ownership.Proofs.Soundness.Straight
import Ownership.Proofs.Typing

/-!
# Typed worlds

An environment types a world if the content of each variable refines the type of its
slot, and the operands that have been parked refine the types of their temporaries, which are whole
(`Typed`). What the checker finds out from types then holds of the world.

* `Typed.resolves`: a place that has a type leads to a content that refines it.
* `Typed.conflicts`, `Typed.lendable`: a place that may be written or read conflicts with no borrow
  in the world, or with no unique one.
* `Typed.spread`: **a write goes to one place** that is reached across unique borrows, and the
  environment after it types the world with the new content there.
* `Typed.park`, `Typed.release`, `Typed.join_left`, `Typed.join_right`: the other changes of the
  environment.
-/

namespace Ownership

variable {Γ Γ' J : Env} {W : World} {K L : List (String × Content)} {cs : List Content}
variable {variance : Variance} {p q t : Place} {T U u ty : Ty} {s : Slot} {c d old : Content}
variable {x : String} {l inner : Lifetime} {loc : Reference} {o : Loan} {n : Nat} {whole : Bool}

/-- **The environment types the world** and the operands that are parked under temporary names. -/
structure Typed (Γ : Env) (W : World) (K : List (String × Content)) : Prop where
  root : ∀ r ∈ W, ∃ s, Γ.get? r.name = some s ∧ s.lifetime = r.level ∧ Refines false s.ty r.content
  parked : ∀ k ∈ K, ∃ s, Γ.get? k.1 = some s ∧ s.lifetime.isRoot = true ∧ s.ty.defined = true ∧
    Refines false s.ty k.2
  slot : ∀ x s, Γ.get? x = some s → (∃ r ∈ W, r.name = x) ∨ ∃ k ∈ K, k.1 = x
  named : ∀ r ∈ W, ∀ i, r.name ≠ Env.temporary i
  temporary : ∀ k ∈ K, ∃ i, k.1 = Env.temporary i
  distinct : (K.map Prod.fst).Nodup

/-- The union of the types of places covers each of them. -/
theorem unionOver_ok {f : Place → Except Violation Ty} {joined : Option Ty} {ps : List Place}
    (h : unionOver f joined ps = .ok T) : (∀ u, joined = some u → Refines.Covers T u) ∧
      ∀ p ∈ ps, ∃ u, f p = .ok u ∧ Refines.Covers T u := by
  induction ps generalizing joined with
  | nil =>
    cases h
    refine ⟨?_, nofun⟩
    rintro u rfl
    exact fun _ _ h => h
  | cons p ps ih =>
    rw [unionOver, Traced.bind_eq_ok] at h
    obtain ⟨u, hu, h⟩ := h
    cases joined with
    | none =>
      obtain ⟨hj, hps⟩ := ih h
      refine ⟨nofun, fun p' hp' => ?_⟩
      rcases List.mem_cons.1 hp' with rfl | hp'
      · exact ⟨u, hu, hj u rfl⟩
      · exact hps p' hp'
    | some v =>
      simp only at h
      cases hv : v.union u with
      | none =>
        rw [hv] at h
        cases h
      | some w =>
        rw [hv] at h
        obtain ⟨hj, hps⟩ := ih h
        -- what is joined so far covers both, and the rest covers that
        obtain ⟨cv, cu⟩ := Refines.covers_union hv
        refine ⟨?_, fun p' hp' => ?_⟩
        · rintro _ ⟨⟩
          exact fun k c hr => hj w rfl k c (cv k c hr)
        · rcases List.mem_cons.1 hp' with rfl | hp'
          · exact ⟨u, hu, fun k c hr => hj w rfl k c (cu k c hr)⟩
          · exact hps p' hp'

namespace Typed

/-- The variable of a place that is no temporary. -/
theorem exists_root (h : Typed Γ W K) (hs : Γ.get? x = some s) (hx : ∀ i, x ≠ Env.temporary i) :
    ∃ r ∈ W, r.name = x ∧ s.lifetime = r.level ∧ Refines false s.ty r.content := by
  rcases h.slot x s hs with ⟨r, hr, rfl⟩ | ⟨k, hk, rfl⟩
  · obtain ⟨s', hs', e⟩ := h.root r hr
    rw [hs] at hs'
    cases hs'
    exact ⟨r, hr, rfl, e⟩
  · -- the other slots are those of temporaries
    obtain ⟨i, e⟩ := h.temporary k hk
    exact absurd e (hx i)

theorem get?_root (h : Typed Γ W K) {r : Root} (hr : r ∈ W) (hs : Γ.get? r.name = some s) :
    s.lifetime = r.level ∧ Refines false s.ty r.content := by
  obtain ⟨s', hs', e⟩ := h.root r hr
  rw [hs] at hs'
  cases hs'
  exact e

/-- The environment knows of every borrow. -/
theorem mem_borrows (h : Typed Γ W K) (ho : o ∈ W.loans (K.map Prod.snd)) :
    ∃ x s, Γ.get? x = some s ∧ ∃ b ∈ s.ty.borrows, b.1 = o.mutable ∧ o.target ∈ b.2 := by
  rcases List.mem_append.1 ho with ho | ho
  · obtain ⟨r, hr, ho⟩ := List.mem_flatMap.1 ho
    obtain ⟨s, hs, -, hr⟩ := h.root r hr
    exact ⟨r.name, s, hs, hr.mem_borrows ho⟩
  · rw [List.flatMap_map] at ho
    obtain ⟨k, hk, ho⟩ := List.mem_flatMap.1 ho
    obtain ⟨s, hs, -, -, hr⟩ := h.parked k hk
    exact ⟨k.1, s, hs, hr.mem_borrows ho⟩

/-- What may be read conflicts with no unique borrow. -/
theorem lendable (h : Typed Γ W K) (hp : Γ.readProhibited p = false) :
    ∀ o ∈ W.loans (K.map Prod.snd), o.mutable = true → o.target.conflicts p = false := by
  intro o ho hm
  obtain ⟨x, s, hs, b, hb, hbm, ht⟩ := h.mem_borrows ho
  exact Env.not_readProhibited hp hs b hb (hbm.trans hm) o.target ht

/-- What may be written conflicts with no borrow. -/
theorem conflicts (h : Typed Γ W K) (hp : Γ.writeProhibited p = false) :
    ∀ o ∈ W.loans (K.map Prod.snd), o.target.conflicts p = false := by
  intro o ho
  obtain ⟨x, s, hs, b, hb, -, ht⟩ := h.mem_borrows ho
  exact Env.not_writeProhibited hp hs b hb o.target ht

/-- What a content of the type borrows lives long enough. -/
theorem outlives (h : Typed Γ W K) (hw : Γ.within T l = true) (hd : Refines false T d)
    (ho : o ∈ d.loans) : ∀ r ∈ W, r.name = o.target.name → l.within r.level = true := by
  intro r hr e
  obtain ⟨s, hs, hl⟩ := Env.within_ok hw (hd.mem_borrowed ho)
  rw [← e] at hs
  rw [← (h.get?_root hr hs).1]
  exact hl

/-- A place that is reached in the type of its variable is stored there. -/
theorem at_reached (h : Typed Γ W K) (hs : Γ.get? p.name = some s)
    (hp : ∀ i, p.name ≠ Env.temporary i) (hf : s.ty.follow p.path = .reached u) :
    ∃ c loc, W.At p c loc ∧ Refines false u c := by
  obtain ⟨r, hr, e, -, href⟩ := h.exists_root hs hp
  obtain ⟨c, loc, hw, hc⟩ := href.reached (r := .borrowed r.home) hf
  exact ⟨c, loc, ⟨r, hr, e, hw⟩, hc⟩

/-- A place behind a borrow in the type of its variable lies behind a borrow of a target. -/
theorem at_crossed (h : Typed Γ W K) {m : Bool} {ps : PlaceSet} {rest : List Selector}
    (hs : Γ.get? p.name = some s) (hp : ∀ i, p.name ≠ Env.temporary i)
    (hf : s.ty.follow p.path = .crossed m ps rest) :
    ∃ π o loc, p = ⟨p.name, π ++ .deref :: rest⟩ ∧ W.At ⟨p.name, π⟩ (.loan o) loc ∧
      o.stale = false ∧ o.mutable = m ∧ o.target ∈ ps := by
  obtain ⟨r, hr, e, -, href⟩ := h.exists_root hs hp
  -- the path splits where it crosses the borrow
  obtain ⟨π, o, loc, hpath, hw, ho⟩ := href.crossed (r := .borrowed r.home) hf
  exact ⟨π, o, loc, by rw [← hpath], ⟨r, hr, e, hw⟩, ho⟩

/-- A target of a borrow is no temporary. -/
theorem target_named (h : Typed Γ W K) (hsafe : W.Safe cs) (ho : o ∈ W.loans cs) (i : Nat) :
    o.target.name ≠ Env.temporary i := by
  obtain ⟨t, ht⟩ := hsafe.loans o ho
  obtain ⟨r, hr, e⟩ := ht.root
  exact e ▸ h.named r hr i

/-- **A place that has a type leads to a content that refines it.** -/
theorem resolves (h : Typed Γ W K) (hsafe : W.Safe cs) (ht : typeUpTo Γ n p = .ok T)
    (hp : ∀ i, p.name ≠ Env.temporary i) : ∃ q d loc,
      W.Resolves (fun _ => True) p q loc ∧ W.At q d loc ∧ Refines false T d := by
  induction n generalizing p T with
  | zero => cases ht
  | succ n ih =>
    obtain ⟨s, hs, hf | ⟨m, ps, rest, hf, ht⟩⟩ := typeUpTo_ok ht
    · obtain ⟨c, loc, ha, hr⟩ := h.at_reached hs hp hf
      exact ⟨p, c, loc, .here trivial ha, ha, hr⟩
    · obtain ⟨π, o, loc, e, ha, hst, -, hm⟩ := h.at_crossed hs hp hf
      -- the target is one of those that have been typed behind the borrow
      have ho : o ∈ W.loans cs := ha.mem_loans (by simp [Content.loans])
      obtain ⟨u, hu, hc⟩ := (unionOver_ok ht).2 (o.target.extend rest)
        (List.mem_map.2 ⟨o.target, hm, rfl⟩)
      obtain ⟨t, hto⟩ := hsafe.loans o ho
      obtain ⟨q, d, qloc, hq, hqa, hd⟩ := ih hu (h.target_named hsafe ho)
      rw [e]
      exact ⟨q, d, qloc, .through trivial ha hst hto hq, hqa, hc _ _ hd⟩

/-! ### Changes -/

/-- An environment whose types cover those of another one types the same worlds. -/
theorem cover (h : Typed Γ W K) (hnone : ∀ x, Γ.get? x = none → Γ'.get? x = none)
    (hsome : ∀ x s, Γ.get? x = some s →
      ∃ s', Γ'.get? x = some s' ∧ s'.lifetime = s.lifetime ∧ Refines.Covers s'.ty s.ty)
    (hwhole : ∀ k ∈ K, ∀ s, Γ'.get? k.1 = some s → s.ty.defined = true) : Typed Γ' W K where
  root := by
    intro r hr
    obtain ⟨s, hs, hl, href⟩ := h.root r hr
    obtain ⟨s', hs', e, hc⟩ := hsome _ s hs
    exact ⟨s', hs', e.trans hl, hc _ _ href⟩
  parked := by
    intro k hk
    obtain ⟨s, hs, hl, -, href⟩ := h.parked k hk
    obtain ⟨s', hs', e, hc⟩ := hsome _ s hs
    exact ⟨s', hs', by rw [e, hl], hwhole k hk s' hs', hc _ _ href⟩
  slot := by
    intro x s hs
    cases hx : Γ.get? x with
    | none =>
      rw [hnone x hx] at hs
      cases hs
    | some s₀ => exact h.slot x s₀ hx
  named := h.named
  temporary := h.temporary
  distinct := h.distinct

theorem weaker (h : Typed Γ W K) (hw : Weaker Γ Γ') : Typed Γ' W K := by
  refine h.cover hw.none (fun x s hs => ?_) fun k hk s' hs' => ?_
  · obtain ⟨s', hs', e, hc, -⟩ := hw.some x s hs
    exact ⟨s', hs', e, hc⟩
  · obtain ⟨s, hs, -, hd, -⟩ := h.parked k hk
    obtain ⟨s₁, hs₁, -, -, hd₁⟩ := hw.some _ s hs
    rw [hs'] at hs₁
    cases hs₁
    exact hd₁ hd

/-- Another part of a variable and of its type. -/
theorem put (h : Typed Γ W K) (hs : Γ.get? p.name = some s) (hp : ∀ i, p.name ≠ Env.temporary i)
    (hf : s.ty.follow p.path = .reached u) (hd : Refines false T d) :
    Typed (Γ.insert p.name ⟨s.ty.replaceAt p.path T, s.lifetime⟩) (W.put p d) K := by
  refine ⟨fun r hr => ?_, fun k hk => ?_, fun x s' hx => ?_, fun r hr => ?_, h.temporary,
    h.distinct⟩
  · obtain ⟨r₀, hr₀, en, el, hcase⟩ := World.Safe.mem_put hr
    obtain ⟨s₀, hs₀, hl, href⟩ := h.root r₀ hr₀
    rw [en, el]
    rcases hcase with ⟨e, hc⟩ | ⟨e, hc⟩
    · rw [e, hs] at hs₀
      cases hs₀
      rw [e, hc, NameMap.get?_insert_self]
      exact ⟨_, rfl, hl, href.put hf hd⟩
    · rw [NameMap.get?_insert, if_neg e, hc]
      exact ⟨s₀, hs₀, hl, href⟩
  · -- parked operands have other names
    rw [NameMap.get?_insert, if_neg]
    · exact h.parked k hk
    · obtain ⟨i, e⟩ := h.temporary k hk
      exact fun e' => hp i (e'.symm.trans e)
  · have hx' : ∃ s'', Γ.get? x = some s'' := by
      rw [NameMap.get?_insert] at hx
      split at hx
      · rename_i e
        exact ⟨s, e ▸ hs⟩
      · exact ⟨s', hx⟩
    obtain ⟨s'', hx'⟩ := hx'
    refine (h.slot x s'' hx').imp_left fun ⟨r, hr, e⟩ => ⟨_, World.mem_put hr, ?_⟩
    split <;> exact e
  · obtain ⟨r₀, hr₀, en, -⟩ := World.Safe.mem_put hr
    exact en ▸ h.named r₀ hr₀

/-- A new variable. -/
theorem bind (h : Typed Γ W K) (hx : Γ.get? x = none) (hn : ∀ i, x ≠ Env.temporary i)
    (hd : Refines false T d) (a : Nat) : Typed (Γ.insert x ⟨T, l⟩) (⟨x, d, l, a⟩ :: W) K := by
  have other : ∀ {y s}, Γ.get? y = some s → y ≠ x := by
    rintro y s hy rfl
    rw [hx] at hy
    cases hy
  refine ⟨fun r hr => ?_, fun k hk => ?_, fun y s hy => ?_, fun r hr => ?_, h.temporary, h.distinct⟩
  · rcases List.mem_cons.1 hr with rfl | hr
    · exact ⟨_, NameMap.get?_insert_self .., rfl, hd⟩
    · obtain ⟨s, hs, e⟩ := h.root r hr
      exact ⟨s, by rw [NameMap.get?_insert, if_neg (other hs), hs], e⟩
  · obtain ⟨s, hs, e⟩ := h.parked k hk
    exact ⟨s, by rw [NameMap.get?_insert, if_neg (other hs), hs], e⟩
  · rw [NameMap.get?_insert] at hy
    split at hy
    · rename_i e
      exact .inl ⟨_, List.mem_cons_self, e.symm⟩
    · exact (h.slot y s hy).imp_left fun ⟨r, hr, e⟩ => ⟨r, List.mem_cons_of_mem _ hr, e⟩
  · rcases List.mem_cons.1 hr with rfl | hr
    · exact hn
    · exact h.named r hr

/-- The end of a block. -/
theorem leave (h : Typed Γ W K) (hi : inner.isRoot = false) :
    Typed (Γ.dropLifetime inner) (W.filter fun r => r.level != inner) K := by
  refine ⟨fun r hr => ?_, fun k hk => ?_, fun y s hy => ?_, fun r hr => ?_, h.temporary, h.distinct⟩
  · obtain ⟨hr, hl⟩ := List.mem_filter.1 hr
    obtain ⟨s, hs, e, href⟩ := h.root r hr
    refine ⟨s, ?_, e, href⟩
    rw [Env.dropLifetime, NameMap.get?_filter, hs]
    simpa [Option.filter, e] using hl
  · obtain ⟨s, hs, e, href⟩ := h.parked k hk
    refine ⟨s, ?_, e, href⟩
    rw [Env.dropLifetime, NameMap.get?_filter, hs]
    have : s.lifetime ≠ inner := by
      rintro rfl
      rw [hi] at e
      cases e
    simp [Option.filter, this]
  · rw [Env.dropLifetime, NameMap.get?_filter, Option.filter_eq_some_iff] at hy
    rcases h.slot y s hy.1 with ⟨r, hr, rfl⟩ | hk
    · refine .inl ⟨r, List.mem_filter.2 ⟨hr, ?_⟩, rfl⟩
      rw [← (h.get?_root hr hy.1).1]
      exact hy.2
    · exact .inr hk
  · exact h.named r (List.mem_filter.1 hr).1

/-- An operand is parked. -/
theorem park (h : Typed Γ W K) (hd : Refines false T d) (hT : T.defined = true)
    (hl : l.isRoot = true) :
    Typed (Γ.insert Γ.freshName ⟨T, l⟩) W ((Γ.freshName, d) :: K) := by
  obtain ⟨⟨i, hi⟩, hn⟩ := Γ.freshName_spec
  -- the name is fresh
  have other : ∀ {y s}, Γ.get? y = some s → y ≠ Γ.freshName := by
    intro y s hy e
    rw [e, hn] at hy
    cases hy
  refine ⟨fun r hr => ?_, fun k hk => ?_, fun y s hy => ?_, h.named, fun k hk => ?_, ?_⟩
  · obtain ⟨s, hs, e⟩ := h.root r hr
    exact ⟨s, by rw [NameMap.get?_insert, if_neg (other hs), hs], e⟩
  · rcases List.mem_cons.1 hk with rfl | hk
    · exact ⟨_, NameMap.get?_insert_self .., hl, hT, hd⟩
    · obtain ⟨s, hs, e⟩ := h.parked k hk
      exact ⟨s, by rw [NameMap.get?_insert, if_neg (other hs), hs], e⟩
  · rw [NameMap.get?_insert] at hy
    split at hy
    · rename_i e
      exact .inr ⟨_, List.mem_cons_self, e.symm⟩
    · exact (h.slot y s hy).imp_right fun ⟨k, hk, e⟩ => ⟨k, List.mem_cons_of_mem _ hk, e⟩
  · rcases List.mem_cons.1 hk with rfl | hk
    · exact ⟨i, hi⟩
    · exact h.temporary k hk
  · refine List.nodup_cons.2 ⟨fun hm => ?_, h.distinct⟩
    obtain ⟨k, hk, e⟩ := List.mem_map.1 hm
    obtain ⟨s, hs, -⟩ := h.parked k hk
    exact other hs e

/-- The operands that were parked last are released. -/
theorem release (h : Typed Γ W (L ++ K)) {names : List String}
    (hn : names.Perm (L.map Prod.fst)) : Typed (Γ.eraseAll names) W K := by
  have hd : (L.map Prod.fst ++ K.map Prod.fst).Nodup := by simpa using h.distinct
  -- the names that stay are not among those released
  have keep : ∀ {y s}, y ∉ L.map Prod.fst → Γ.get? y = some s →
      (Γ.eraseAll names).get? y = some s := fun {y s} hy hs => by
    rw [NameMap.get?_eraseAll, if_neg fun hm => hy (hn.mem_iff.1 hm), hs]
  refine ⟨fun r hr => ?_, fun k hk => ?_, fun y s hy => ?_, h.named,
    fun k hk => h.temporary k (List.mem_append_right _ hk), (List.nodup_append.1 hd).2.1⟩
  · obtain ⟨s, hs, e⟩ := h.root r hr
    refine ⟨s, keep (fun hm => ?_) hs, e⟩
    obtain ⟨k, hk, e⟩ := List.mem_map.1 hm
    obtain ⟨i, hi⟩ := h.temporary k (List.mem_append_left _ hk)
    exact h.named r hr i (e.symm.trans hi)
  · obtain ⟨s, hs, e⟩ := h.parked k (List.mem_append_right _ hk)
    refine ⟨s, keep (fun hm => ?_) hs, e⟩
    exact (List.nodup_append.1 hd).2.2 _ hm _ (List.mem_map_of_mem hk) rfl
  · rw [NameMap.get?_eraseAll] at hy
    split at hy
    · cases hy
    · rename_i hnot
      rcases h.slot y s hy with hr | ⟨k, hk, rfl⟩
      · exact .inl hr
      · rcases List.mem_append.1 hk with hk | hk
        · exact absurd (hn.mem_iff.2 (List.mem_map_of_mem hk)) hnot
        · exact .inr ⟨k, hk, rfl⟩

/-- The types of parked operands are whole, and the contents refine them. -/
theorem parked_types (h : Typed Γ W K) (hL : ∀ k ∈ L, k ∈ K) :
    ((L.map Prod.fst).filterMap fun n => (Γ.get? n).map (·.ty)).length = (L.map Prod.snd).length ∧
      (∀ T ∈ (L.map Prod.fst).filterMap fun n => (Γ.get? n).map (·.ty), T.defined = true) ∧
      ∀ (i : Nat) T d, ((L.map Prod.fst).filterMap fun n => (Γ.get? n).map (·.ty))[i]? = some T →
        (L.map Prod.snd)[i]? = some d → Refines false T d := by
  induction L with
  | nil => exact ⟨rfl, nofun, fun i T d hT => by simp at hT⟩
  | cons k L ih =>
    obtain ⟨s, hs, -, hw, href⟩ := h.parked k (hL k List.mem_cons_self)
    obtain ⟨hlen, hwhole, hget⟩ := ih fun k hk => hL k (List.mem_cons_of_mem _ hk)
    simp only [List.map_cons, List.filterMap_cons, hs, Option.map_some, List.length_cons, hlen,
      true_and]
    refine ⟨fun T hT => ?_, fun i T d hT hd => ?_⟩
    · rcases List.mem_cons.1 hT with rfl | hT
      · exact hw
      · exact hwhole T hT
    · cases i with
      | zero =>
        simp only [List.getElem?_cons_zero, Option.some.injEq] at hT hd
        subst hT hd
        exact href
      | succ i => exact hget i T d hT hd

/-! ### Joins -/

/-- Parked operands have whole types after both arms. -/
theorem join_defined (h : Typed Γ W K) (h' : Typed Γ' W' K) (hj : join variance Γ Γ' = .ok J) :
    ∀ k ∈ K, ∀ s, J.get? k.1 = some s → s.ty.defined = true := by
  intro k hk s hs
  obtain ⟨left, hl, -, hdl, -⟩ := h.parked k hk
  obtain ⟨right, hr, -, hdr, -⟩ := h'.parked k hk
  -- the join has the union of both types there
  obtain ⟨left', right', hl', hr', -, -, hu⟩ := joined_of_join hj hs
  cases hl.symm.trans hl'
  cases hr.symm.trans hr'
  exact Ty.defined_union hu hdl hdr

theorem join_left (h : Typed Γ W K) (h' : Typed Γ' W' K) (hj : join variance Γ Γ' = .ok J) :
    Typed J W K := by
  refine h.cover (fun x hx => ((join_ok hj).1 x hx).1) (fun x s hs => ?_) (h.join_defined h' hj)
  obtain ⟨right, t, -, -, -, hu, hJ⟩ := (join_ok hj).2 x s hs
  exact ⟨_, hJ, rfl, (Refines.covers_union hu).1⟩

theorem join_right (h : Typed Γ W K) (h' : Typed Γ' W' K) (hj : join variance Γ Γ' = .ok J) :
    Typed J W' K := by
  refine h'.cover (fun x hx => ((join_ok hj).1 x ((unbound_iff_of_join hj).2 hx)).1)
    (fun x s hs => ?_) (h.join_defined h' hj)
  obtain ⟨left, t, -, -, -, hu, hJ⟩ := joined_of_right hj hs
  exact ⟨_, hJ, rfl, (Refines.covers_union hu).2⟩

/-! ### Writes -/

/-- The slot of a variable that a write has not changed is put back. -/
theorem restore (h : Typed Γ W K) (h' : Typed Γ' (W.put q d) K) (hs : Γ.get? x = some s)
    (hx : ∀ i, x ≠ Env.temporary i) (hq : q.name ≠ x) : Typed (Γ'.insert x s) (W.put q d) K where
  root := by
    intro r hr
    rw [NameMap.get?_insert]
    split
    · rename_i e
      obtain ⟨r₀, hr₀, en, el, hcase⟩ := World.Safe.mem_put hr
      rcases hcase with ⟨e', -⟩ | ⟨-, hc⟩
      · -- the write ended in another variable
        exact absurd (e'.symm.trans (en.symm.trans e)) hq
      · rw [el, hc]
        rw [en] at e
        exact ⟨s, rfl, h.get?_root hr₀ (e ▸ hs)⟩
    · exact h'.root r hr
  parked := by
    intro k hk
    rw [NameMap.get?_insert, if_neg]
    · exact h'.parked k hk
    · obtain ⟨i, e⟩ := h'.temporary k hk
      exact fun e' => hx i (e'.symm.trans e)
  slot := by
    intro y s' hy
    rw [NameMap.get?_insert] at hy
    split at hy
    · rename_i e
      obtain ⟨r, hr, er, -⟩ := h.exists_root hs hx
      refine .inl ⟨_, World.mem_put hr, ?_⟩
      rw [e, ← er]
      split <;> rfl
    · exact h'.slot y s' hy
  named := h'.named
  temporary := h'.temporary
  distinct := h'.distinct

/-- **A write goes to one place** across unique borrows. A content of the type may be put there:
what it borrows lives long enough, and the environment after the write types the world with it. -/
theorem spread (h : Typed Γ W K) (hsafe : W.Safe cs) (hst : whole = false → W.Straight cs)
    (hty : ty.defined = true) {strong : Bool}
    (hw : spreadUpTo variance ty whole n strong Γ p = .ok Γ')
    (hp : ∀ i, p.name ≠ Env.temporary i) : ∃ q old loc, W.Crosses p q ∧ W.At q old loc ∧
      (∀ d, Refines false ty d → ∀ o ∈ d.loans, ∀ r ∈ W, ∀ r' ∈ W, r.name = q.name →
        r'.name = o.target.name → r.level.within r'.level = true) ∧
      ∀ d, Refines false ty d → Typed Γ' (W.put q d) K := by
  induction n generalizing Γ p Γ' strong with
  | zero => cases hw
  | succ n ih =>
    obtain ⟨s, hs, hwithin, ⟨old, new, hf, rfl, hnew⟩ | ⟨targets, rest, Γ₃, hf, hfold, rfl⟩⟩ :=
      spreadUpTo_ok hw
    · -- the write ends in the variable itself
      obtain ⟨c, loc, ha, -⟩ := h.at_reached hs hp hf
      refine ⟨p, c, loc, .here ha, ha, fun d hd o ho r hr r' hr' e e' => ?_, fun d hd => ?_⟩
      · rw [← e] at hs
        rw [← (h.get?_root hr hs).1]
        exact h.outlives hwithin hd ho r' hr' e'
      · rcases hnew with ⟨-, rfl⟩ | ⟨-, hu⟩
        · exact h.put hs hp hf hd
        · exact h.put hs hp hf (Refines.union_right hu hd)
    · obtain ⟨π, o, loc, e, ha, hst', hm, ht⟩ := h.at_crossed hs hp hf
      have ho : o ∈ W.loans cs := ha.mem_loans (by simp [Content.loans])
      -- the targets before the one that is hit and those after it only weaken the environment
      have hmem : o.target.extend rest ∈ targets.toList.map (·.extend rest) :=
        List.mem_map.2 ⟨o.target, ht, rfl⟩
      obtain ⟨ps, ps', hsplit⟩ := List.append_of_mem hmem
      rw [hsplit, List.foldlM_append, Traced.bind_eq_ok] at hfold
      obtain ⟨Γ₁, h₁, hfold⟩ := hfold
      rw [List.foldlM_cons, Traced.bind_eq_ok] at hfold
      obtain ⟨Γ₂, h₂, h₃⟩ := hfold
      have hweak : ∀ Γ p Γ', spreadUpTo variance ty whole n false Γ p = .ok Γ' → Weaker Γ Γ' :=
        fun _ _ _ h => spreadUpTo_weaker hty h
      obtain ⟨q, old, qloc, hq, hqa, hlive, hput⟩ := ih (h.weaker (.foldlM hweak h₁)) h₂
        (h.target_named hsafe ho)
      have hcross : W.Crosses p q := by
        rw [e]
        exact .through ha hst' hm hq
      refine ⟨q, old, qloc, hcross, hqa, hlive, fun d hd => ?_⟩
      have hd := (hput d hd).weaker (.foldlM hweak h₃)
      cases whole with
      | true => exact hd
      | false => exact h.restore hd hs hp ((hst rfl).ne_of_crosses ha hst' hm hq)

end Typed

end Ownership
