import Ownership.Proofs.Typing
import Ownership.Proofs.Environments

/-!
# What the checker accepts

The tests of each rule suffice: a term that passes them is typed, and this is what comes out. For
reads, borrows, assignments and joins the tests are told in full (`Checker.read_eq_ok` and so on),
so what holds of one checker or environment can be carried over to another.
-/

namespace Ownership

variable {c : Checker} {variance : Variance} {Γ Γ₁ Γ' lhs rhs J : Env} {l inner : Lifetime}
variable {t : Term} {ts : List Term} {T U : Ty} {sp xs : Span} {p : Place} {P P' : Parked}
variable {x : String} {o : Nat} {m : Bool} {s : Slot}

namespace Checker

/-- **What it takes to read a place.** -/
theorem read_eq_ok {k : AccessKind} : c.read Γ k p = .ok (Γ', T) ↔
    ∃ s, Γ.get? p.name = some s ∧ availability Γ p false = .available ∧ typeOf Γ p = .ok T ∧
      ((c.copies k p T = .ok true ∧ Γ.readProhibited p = false ∧ Γ' = Γ) ∨
        (c.copies k p T = .ok false ∧ availability Γ p true = .available ∧
          Γ.writeProhibited p = false ∧ ∃ u, s.ty.follow p.path = .reached u ∧
          Γ' = Γ.insert p.name ⟨s.ty.replaceAt p.path (.shadow u), s.lifetime⟩)) := by
  constructor
  · intro h
    obtain ⟨s, hs, ha, ht, hcase⟩ := read_ok h
    refine ⟨s, hs, ha, ht, ?_⟩
    simp only [read, Traced.bind_eq_ok] at h
    obtain ⟨s', hs', ⟨⟩, -, U, hU, b, hb, h⟩ := h
    cases ht.symm.trans hU
    rcases hcase with ⟨hc, e⟩ | ⟨hc, hw, hu⟩
    · cases hb.symm.trans hc
      refine .inl ⟨hc, ?_, e⟩
      cases hr : Γ.readProhibited p with
      | false => rfl
      | true =>
        rw [if_pos rfl, hr] at h
        cases h
    · cases hb.symm.trans hc
      rw [if_neg Bool.false_ne_true, Traced.bind_eq_ok] at h
      obtain ⟨⟨⟩, hav, -⟩ := h
      exact .inr ⟨hc, require_ok.1 hav, hw, hu⟩
  · rintro ⟨s, hs, ha, ht, ⟨hc, hr, rfl⟩ | ⟨hc, hav, hw, u, hf, rfl⟩⟩
    · simp [read, declared_ok.2 hs, require_ok.2 ha, ht, hc, hr]
    · simp [read, declared_ok.2 hs, require_ok.2 ha, require_ok.2 hav, ht, hc, hw, strike, hf]

/-- **What it takes to borrow a place.** -/
theorem borrow_eq_ok : borrow Γ m p = .ok T ↔
    (∃ s, Γ.get? p.name = some s) ∧ availability Γ p false = .available ∧
      (m = true → availability Γ p true = .available ∧ Γ.writeProhibited p = false) ∧
      (m = false → Γ.readProhibited p = false) ∧ T = .borrowOf m p := by
  constructor
  · intro h
    obtain ⟨s, hs, ha, hw, hr, e⟩ := borrow_ok h
    refine ⟨⟨s, hs⟩, ha, fun hm => ⟨?_, hw hm⟩, hr, e⟩
    subst hm
    simp only [borrow, Traced.bind_eq_ok, if_true] at h
    obtain ⟨-, -, ⟨⟩, -, ⟨⟩, hav, -⟩ := h
    exact require_ok.1 hav
  · rintro ⟨⟨s, hs⟩, ha, hw, hr, rfl⟩
    cases m with
    | true =>
      simp [borrow, declared_ok.2 hs, require_ok.2 ha, require_ok.2 (hw rfl).1, (hw rfl).2]
    | false => simp [borrow, declared_ok.2 hs, require_ok.2 ha, hr rfl]

/-- **What it takes to assign to a place.** -/
theorem assign_eq_ok : c.assign Γ p T = .ok Γ' ↔
    availability Γ p true = .available ∧ Γ.writeProhibited p = false ∧
      T.prohibitsWriting p = false ∧ write c.variance Γ p T true = .ok Γ' := by
  constructor
  · intro h
    obtain ⟨hw, hT, h'⟩ := assign_ok h
    simp only [assign, Traced.bind_eq_ok] at h
    obtain ⟨⟨⟩, ha, -⟩ := h
    exact ⟨require_ok.1 ha, hw, hT, h'⟩
  · rintro ⟨ha, hw, hT, h⟩
    simp [assign, require_ok.2 ha, hw, hT, h]

theorem expect_eq_ok {Γ₁ Γ₂ : Env} {T₁ T₂ : Ty} : c.expect Γ₁ T₁ T₂ Γ₂ = .ok () ↔
    compatible c.variance Γ₁ T₁ T₂ Γ₂ = .ok true :=
  ⟨expect_ok, fun h => by rw [expect, h]; rfl⟩

/-- **What it takes to merge two arms.** -/
theorem merge_eq_ok {onTrue onFalse : Env × Ty} : c.merge onTrue onFalse = .ok (Γ', T) ↔
    compatible c.variance onTrue.1 onTrue.2 onFalse.2 onFalse.1 = .ok true ∧
      join c.variance onTrue.1 onFalse.1 = .ok Γ' ∧ onTrue.2.union onFalse.2 = some T := by
  constructor
  · intro h
    obtain ⟨he, hj, hu⟩ := merge_ok h
    exact ⟨expect_ok he, hj, hu⟩
  · rintro ⟨he, hj, hu⟩
    simp [merge, expect_eq_ok.2 he, hj, hu]

end Checker

/-! ### Joins -/

theorem joinSlot_of {left right : Slot} (hl : left.lifetime = right.lifetime)
    (hc : compatible variance lhs left.ty right.ty rhs = .ok true)
    (hu : left.ty.union right.ty = some T) :
    joinSlot variance lhs rhs x left right = .ok ⟨T, left.lifetime⟩ := by
  rw [joinSlot, if_neg (not_not_intro hl)]
  simp only [hc, hu]
  rfl

/-- A fold succeeds if each of its steps does, and keeps what each of them keeps. -/
theorem foldlM_succeeds {α β ε : Type} {I : β → Prop} {f : β → α → Except ε β} {l : List α} {b : β}
    (step : ∀ a ∈ l, ∀ b, I b → ∃ b', f b a = .ok b' ∧ I b') (hb : I b) :
    ∃ b', l.foldlM f b = .ok b' ∧ I b' := by
  induction l generalizing b with
  | nil => exact ⟨b, rfl, hb⟩
  | cons a l ih =>
    obtain ⟨b₁, h₁, hb₁⟩ := step a List.mem_cons_self b hb
    obtain ⟨b', h, hb'⟩ := ih (fun a ha => step a (List.mem_cons_of_mem _ ha)) hb₁
    exact ⟨b', by rw [List.foldlM_cons, h₁, Traced.ok_bind, h], hb'⟩

/-- A fold follows another one if each of its steps does. -/
theorem foldlM_follows {α β γ ε : Type} {R : β → γ → Prop} {f : γ → α → Except ε γ}
    {g : β → α → Except ε β} {as : List α} {b : β} {c c' : γ}
    (step : ∀ a ∈ as, ∀ b c c', R b c → f c a = .ok c' → ∃ b', g b a = .ok b' ∧ R b' c')
    (hb : R b c) (h : as.foldlM f c = .ok c') : ∃ b', as.foldlM g b = .ok b' ∧ R b' c' := by
  induction as generalizing b c with
  | nil =>
    cases h
    exact ⟨b, rfl, hb⟩
  | cons a as ih =>
    rw [List.foldlM_cons, Traced.bind_eq_ok] at h
    obtain ⟨c₁, h₁, h⟩ := h
    obtain ⟨b₁, hb₁, hR⟩ := step a List.mem_cons_self b c c₁ hb h₁
    obtain ⟨b', hb', hR'⟩ := ih (fun a ha => step a (List.mem_cons_of_mem _ ha)) hR h
    exact ⟨b', by rw [List.foldlM_cons, hb₁, Traced.ok_bind, hb'], hR'⟩

/-- **Environments that bind the same names have a join**, if all pairs of slots can be joined. -/
theorem exists_join (hnames : ∀ x, lhs.get? x = none ↔ rhs.get? x = none)
    (hslots : ∀ x left right, lhs.get? x = some left → rhs.get? x = some right →
      left.lifetime = right.lifetime ∧
      compatible variance lhs left.ty right.ty rhs = .ok true ∧
      ∃ t, left.ty.union right.ty = some t) : ∃ J, join variance lhs rhs = .ok J := by
  have hmem : ∀ n, n ∈ lhs.names ↔ n ∈ rhs.names := by
    intro n
    rw [← NameMap.get?_isSome_iff, ← NameMap.get?_isSome_iff, ← Option.ne_none_iff_exists',
      ← Option.ne_none_iff_exists', ne_eq, ne_eq, hnames]
  have hsize : lhs.size = rhs.size := by
    have hperm : lhs.names.Perm rhs.names :=
      (List.perm_ext_iff_of_nodup lhs.names_nodup rhs.names_nodup).2 hmem
    simpa [NameMap.names, NameMap.size] using hperm.length_eq
  simp only [join, hsize, ne_eq, not_true_eq_false, if_false]
  refine (foldlM_succeeds (I := fun _ => True) (fun e he out _ => ?_) trivial).imp fun _ => And.left
  obtain ⟨x, left⟩ := e
  have hleft := NameMap.mem_entries_iff.1 he
  obtain ⟨right, hright⟩ := NameMap.get?_isSome_iff.2
    ((hmem x).1 (NameMap.get?_isSome_iff.1 ⟨left, hleft⟩))
  obtain ⟨hl, hc, t, hu⟩ := hslots x left right hleft hright
  exact ⟨_, by simp only [hright, joinSlot_of hl hc hu]; rfl, trivial⟩

/-- **What it takes to join two environments.** -/
theorem join_eq_ok : join variance lhs rhs = .ok J ↔
    (∀ x, lhs.get? x = none → J.get? x = none ∧ rhs.get? x = none) ∧
      ∀ x left, lhs.get? x = some left → Joined variance lhs rhs J x left := by
  refine ⟨join_ok, fun ⟨hnone, hsome⟩ => ?_⟩
  obtain ⟨J', hJ'⟩ : ∃ J', join variance lhs rhs = .ok J' := by
    refine exists_join (fun x => ⟨fun hx => (hnone x hx).2, fun hx => ?_⟩)
      fun x left right hl hr => ?_
    · cases hl : lhs.get? x with
      | none => rfl
      | some left =>
        obtain ⟨right, -, hr, -⟩ := hsome x left hl
        rw [hx] at hr
        cases hr
    · obtain ⟨right', t, hr', hlife, hc, hu, -⟩ := hsome x left hl
      cases hr.symm.trans hr'
      exact ⟨hlife, hc, t, hu⟩
  obtain ⟨hnone', hsome'⟩ := join_ok hJ'
  rw [hJ']
  refine congrArg _ (NameMap.ext_get? fun x => ?_)
  cases hl : lhs.get? x with
  | none => rw [(hnone' x hl).1, (hnone x hl).1]
  | some left =>
    obtain ⟨right, t, hr, -, -, hu, hJ⟩ := hsome x left hl
    obtain ⟨right', t', hr', -, -, hu', hJ'⟩ := hsome' x left hl
    cases hr.symm.trans hr'
    cases hu.symm.trans hu'
    rw [hJ, hJ']

namespace Checker

/-! ### Terms -/

attribute [local simp] apply sequence park

theorem apply_of_int {n : Int} :
    (c.apply Γ l (.value sp (.int n))).result = .ok (Γ, .int) := by
  simp

theorem apply_of_access {k : AccessKind} (h : c.read Γ k p = .ok (Γ', T)) :
    (c.apply Γ l (.access sp k p)).result = .ok (Γ', T) := by
  simp [h, blame]

theorem apply_of_borrow (h : borrow Γ m p = .ok T) :
    (c.apply Γ l (.borrow sp m p)).result = .ok (Γ, T) := by
  simp [h, blame]

theorem apply_of_box (h : (c.apply Γ l t).result = .ok (Γ', T)) :
    (c.apply Γ l (.box sp t)).result = .ok (Γ', .box T) := by
  simp [h]

theorem apply_of_letMut (hx : Γ.contains x = false)
    (h : (c.apply Γ l t).result = .ok (Γ₁, T)) :
    (c.apply Γ l (.letMut sp x xs t)).result = .ok (Γ₁.insert x ⟨T, l⟩, .unit) := by
  simp [h, hx]

theorem apply_of_assign (hs : Γ.get? p.name = some s)
    (h : (c.apply Γ l t).result = .ok (Γ₁, T)) (ha : c.assign Γ₁ p T = .ok Γ') :
    (c.apply Γ l (.assign sp p t)).result = .ok (Γ', .unit) := by
  simp [h, ha, declared_ok.2 hs, blame]

theorem apply_of_block (h : (c.sequence Γ inner .unit ts).result = .ok (Γ₁, T))
    (hw : Γ₁.within T l = true) :
    (c.apply Γ l (.block sp inner ts)).result = .ok (Γ₁.dropLifetime inner, T) := by
  simp [h, hw]

theorem sequence_of_nil : (c.sequence Γ l T []).result = .ok (Γ, T) := by simp

theorem park_of_nil : (c.park l P []).result = .ok P := by simp

theorem apply_of_tuple (ho : formOf? c.extensions o = some .tuple)
    (h : (c.park l ⟨Γ, []⟩ ts).result = .ok P) :
    (c.apply Γ l (.ext sp o ts)).result = .ok (P.release.1, .compound P.release.2) := by
  rw [apply_form]
  simp [ho, h]

theorem apply_of_conditional {equal : Bool}
    (ho : formOf? c.extensions o = some (.conditional equal)) {lhs rhs onTrue onFalse : Term}
    {left right tt ff : Env × Ty} {Ts : List Ty} (hl : (c.apply Γ l lhs).result = .ok left)
    (hr : (c.apply (Parked.park l [] left).env l rhs).result = .ok right)
    (hrel : (Γ₁, Ts) = (Parked.park l (Parked.park l [] left).names right).release)
    (hc : c.comparable Γ₁ Ts = .ok ()) (ht : (c.apply Γ₁ l onTrue).result = .ok tt)
    (hf : (c.apply Γ₁ l onFalse).result = .ok ff) (hm : c.merge tt ff = .ok (Γ', T)) :
    (c.apply Γ l (.ext sp o [lhs, rhs, onTrue, onFalse])).result = .ok (Γ', T) := by
  rw [apply_form]
  simp [ho, conditional, hl, hr, ← hrel, hc, ht, hf, hm, blame]

end Checker

end Ownership
