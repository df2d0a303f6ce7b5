import Ownership.Proofs.Environments
import Ownership.Proofs.Soundness.Refines
import Ownership.Ty.Path
import Ownership.Ty.Union

/-!
# Borrows in a type

A type lends a place if one of its borrows may point there, under a shadow or not
(`Ty.Lends`). Taking a part of a type, replacing one and uniting two types add no other
borrow. A union is wider than both types: a path leads to the same point of each of them, past
more targets, unless the union has been moved out on the way (`Ty.Widens`).

* `lends_union`: **a union lends what either of the two types lends.**
* `Widens.of_union`, `Widens.of_replaceAt`: unions and what is built from them are wider.
-/

namespace Ownership

namespace Ty

variable {t t' u v g h old new : Ty} {ts gs hs us : List Ty} {m n : Bool} {p : Place}
variable {ps : PlaceSet} {s rest : List Selector}

/-- A borrow somewhere in the type may point to `p`, a unique one if `m` is set. -/
def Lends (t : Ty) (m : Bool) (p : Place) : Prop := ∃ b ∈ t.borrows, b.1 = m ∧ p ∈ b.2

@[simp] theorem not_lends_unit : ¬ unit.Lends m p := by simp [Lends, borrows]

@[simp] theorem not_lends_int : ¬ int.Lends m p := by simp [Lends, borrows]

@[simp] theorem lends_box : (box t).Lends m p ↔ t.Lends m p := by simp [Lends, borrows]

@[simp] theorem lends_shadow : (shadow t).Lends m p ↔ t.Lends m p := by simp [Lends, borrows]

@[simp] theorem lends_borrow : (borrow n ps).Lends m p ↔ n = m ∧ p ∈ ps := by
  simp [Lends, borrows]

@[simp] theorem lends_borrowOf {q : Place} : (borrowOf n q).Lends m p ↔ n = m ∧ p = q := by
  simp [borrowOf]

theorem mem_borrows_compound {b : Bool × PlaceSet} :
    b ∈ (compound ts).borrows ↔ ∃ t ∈ ts, b ∈ t.borrows := by
  rw [borrows, allBorrows_eq, List.mem_flatMap]

@[simp] theorem lends_compound : (compound ts).Lends m p ↔ ∃ t ∈ ts, t.Lends m p := by
  simp only [Lends, mem_borrows_compound]
  constructor
  · rintro ⟨b, ⟨t, ht, hb⟩, h⟩
    exact ⟨t, ht, b, hb, h⟩
  · rintro ⟨t, ht, b, hb, h⟩
    exact ⟨b, ⟨t, ht, hb⟩, h⟩

theorem mem_borrowed : p ∈ t.borrowed ↔ ∃ m, t.Lends m p := by
  simp only [borrowed, Lends, List.mem_flatMap]
  constructor
  · rintro ⟨b, hb, h⟩
    exact ⟨b.1, b, hb, rfl, h⟩
  · rintro ⟨_, b, hb, -, h⟩
    exact ⟨b, hb, h⟩

theorem Lends.borrowed (h : t.Lends m p) : p ∈ t.borrowed := mem_borrowed.2 ⟨m, h⟩

/-- What a type that lends `p` keeps from being written. -/
theorem prohibitsWriting_iff {q : Place} :
    t.prohibitsWriting q = true ↔ ∃ m p, t.Lends m p ∧ p.conflicts q = true := by
  simp only [prohibitsWriting, Lends, List.any_eq_true]
  constructor
  · rintro ⟨b, hb, p, hp, h⟩
    exact ⟨b.1, p, ⟨b, hb, rfl, hp⟩, h⟩
  · rintro ⟨_, p, ⟨b, hb, -, hp⟩, h⟩
    exact ⟨b, hb, p, hp, h⟩

/-- What a type that lends `p` uniquely keeps from being read. -/
theorem prohibitsReading_iff {q : Place} :
    t.prohibitsReading q = true ↔ ∃ p, t.Lends true p ∧ p.conflicts q = true := by
  simp only [prohibitsReading, Lends, List.any_eq_true, Bool.and_eq_true]
  constructor
  · rintro ⟨b, hb, hm, p, hp, h⟩
    exact ⟨p, ⟨b, hb, hm, hp⟩, h⟩
  · rintro ⟨p, ⟨b, hb, hm, hp⟩, h⟩
    exact ⟨b, hb, hm, p, hp, h⟩

theorem Lends.not_conflicts {q : Place} (h : t.Lends m p) (hq : t.prohibitsWriting q = false) :
    p.conflicts q = false := by
  obtain ⟨b, hb, -, hp⟩ := h
  exact not_prohibitsWriting hq b hb p hp

/-! ### Parts -/

theorem follow_shadow (t : Ty) (a : Selector) (s : List Selector) :
    (shadow t).follow (a :: s) = .shadowed := by
  cases a <;> rfl

/-- The borrows in a part of a type are in the type. -/
theorem borrows_of_reached {b : Bool × PlaceSet} (hf : t.follow s = .reached u)
    (hb : b ∈ u.borrows) : b ∈ t.borrows := by
  induction t, s, hf using reached_induction with
  | here => exact hb
  | box t s hf ih => exact ih
  | component ts i t s hi hf ih => exact mem_borrows_compound.2 ⟨t, List.mem_of_getElem? hi, ih⟩

/-- A part of a type lends no more than the type. -/
theorem lends_of_reached (hf : t.follow s = .reached u) (h : u.Lends m p) : t.Lends m p :=
  h.imp fun _ hb => hb.imp_left (borrows_of_reached hf)

/-- A borrow that is crossed is one of the type. -/
theorem lends_of_crossed (hf : t.follow s = .crossed m ps rest) (h : p ∈ ps) : t.Lends m p := by
  induction t, s, hf using crossed_induction with
  | here => exact lends_borrow.2 ⟨rfl, h⟩
  | box t s hf ih => exact lends_box.2 ih
  | component ts i t s hi hf ih => exact lends_compound.2 ⟨t, List.mem_of_getElem? hi, ih⟩

/-- Another part brings no borrow but its own. -/
theorem lends_replaceAt (h : (t.replaceAt s new).Lends m p) : t.Lends m p ∨ new.Lends m p := by
  induction s generalizing t with
  | nil =>
    rw [replaceAt_nil] at h
    exact .inr h
  | cons a s ih =>
    cases t with
    | box t =>
      cases a with
      | deref => exact (ih (lends_box.1 h)).imp_left lends_box.2
      | index i => exact .inl h
    | compound ts =>
      cases a with
      | deref => exact .inl h
      | index i =>
        obtain ⟨u, hu, h⟩ := lends_compound.1 h
        obtain ⟨j, hj⟩ := List.mem_iff_getElem?.1 hu
        rcases component_of_modify hj with ⟨w, -, hw, rfl⟩ | ⟨-, hw⟩
        · exact (ih h).imp_left fun h => lends_compound.2 ⟨w, List.mem_of_getElem? hw, h⟩
        · exact .inl (lends_compound.2 ⟨u, List.mem_of_getElem? hw, h⟩)
    | _ => cases a <;> exact .inl h

/-! ### Unions -/

theorem lends_peel : t.peel.Lends m p ↔ t.Lends m p := by
  cases t <;> simp [peel]

/-- **A union lends what either of the two types lends.** -/
theorem lends_union (hu : g.union h = some u) : u.Lends m p ↔ g.Lends m p ∨ h.Lends m p := by
  have hj := joins_of_union hu
  clear hu
  induction hj with
  | unit => simp
  | int => simp
  | box _ ih => simpa only [lends_box] using ih
  | borrow => simp only [lends_borrow, PlaceSet.mem_union, and_or_left]
  | shadow _ _ ih => rwa [lends_peel, lends_peel, ← lends_shadow] at ih
  | @compound gs hs us hus _ ih =>
    obtain ⟨hl, hl', each⟩ := unionAll_getElem? hus
    simp only [lends_compound]
    -- each component of the union has one in both types, and each of these has one in the union
    constructor
    · rintro ⟨u, hu, hp⟩
      obtain ⟨i, hi⟩ := List.mem_iff_getElem?.1 hu
      obtain ⟨g, h, hg, hh, -⟩ := each i u hi
      exact ((ih i g h u hg hh hi).1 hp).imp (fun hp => ⟨g, List.mem_of_getElem? hg, hp⟩)
        fun hp => ⟨h, List.mem_of_getElem? hh, hp⟩
    · rintro (⟨g, hg, hp⟩ | ⟨h, hh, hp⟩)
      · obtain ⟨i, hi⟩ := List.mem_iff_getElem?.1 hg
        obtain ⟨u, hu⟩ := Refines.exists_getElem? hl.symm hi
        obtain ⟨-, h, -, hh, -⟩ := each i u hu
        exact ⟨u, List.mem_of_getElem? hu, (ih i g h u hi hh hu).2 (.inl hp)⟩
      · obtain ⟨i, hi⟩ := List.mem_iff_getElem?.1 hh
        obtain ⟨u, hu⟩ := Refines.exists_getElem? hl'.symm hi
        obtain ⟨g, -, hg, -, -⟩ := each i u hu
        exact ⟨u, List.mem_of_getElem? hu, (ih i g h u hg hi hu).2 (.inr hp)⟩

/-- What is written to a part takes its stead or is united with it, and brings no borrow but its
own. -/
theorem lends_of_put (hf : t.follow s = .reached old) (hnew : new = v ∨ old.union v = some new)
    (h : (t.replaceAt s new).Lends m p) : t.Lends m p ∨ v.Lends m p := by
  rcases lends_replaceAt h with h | h
  · exact .inl h
  · rcases hnew with rfl | hu
    · exact .inr h
    · exact ((lends_union hu).1 h).imp_left (lends_of_reached hf)

/-- A part that is moved out brings no borrow. -/
theorem lends_of_moved (hf : t.follow s = .reached old)
    (h : (t.replaceAt s (.shadow old)).Lends m p) : t.Lends m p :=
  (lends_replaceAt h).elim id fun h => lends_of_reached hf (lends_shadow.1 h)

/-! ### Wider types -/

end Ty

/-- **The second walk leads to the same point of a wider type**, which lends more. If `whole` is
set, nothing that is whole has been moved out of it. -/
inductive Walk.Widens (whole : Bool) : Walk → Walk → Prop where
  | same {w : Walk} : Widens whole w w
  | reached {u u' : Ty} : (∀ m p, u.Lends m p → u'.Lends m p) →
      (whole = true → u.defined = true → u'.defined = true) →
      Widens whole (.reached u) (.reached u')
  | crossed {m : Bool} {ps qs : PlaceSet} {rest : List Selector} : (∀ p ∈ ps, p ∈ qs) →
      Widens whole (.crossed m ps rest) (.crossed m qs rest)
  | moved {w : Walk} : whole = false → Widens whole w .shadowed

namespace Walk.Widens

variable {whole whole' : Bool} {w w₁ w' : Walk}

theorem trans (h : Widens whole w w₁) (h' : Widens whole w₁ w') : Widens whole w w' := by
  cases h with
  | same => exact h'
  | moved hw =>
    cases h' with
    | same => exact .moved hw
    | moved hw => exact .moved hw
  | reached hl hd =>
    cases h' with
    | same => exact .reached hl hd
    | reached hl' hd' =>
      exact .reached (fun m p hp => hl' m p (hl m p hp)) fun hw h => hd' hw (hd hw h)
    | moved hw => exact .moved hw
  | crossed hs =>
    cases h' with
    | same => exact .crossed hs
    | crossed hs' => exact .crossed fun p hp => hs' p (hs p hp)
    | moved hw => exact .moved hw

theorem weaken (hw : whole' = true → whole = true) (h : Widens whole w w') :
    Widens whole' w w' := by
  cases h with
  | same => exact .same
  | reached hl hd => exact .reached hl fun hk => hd (hw hk)
  | crossed hs => exact .crossed hs
  | moved h =>
    refine .moved (Bool.eq_false_iff.2 fun hk => ?_)
    rw [hw hk] at h
    cases h

theorem of_reached {u : Ty} (h : Widens whole w w') (hw : w = .reached u) :
    (∃ u', w' = .reached u' ∧ ∀ m p, u.Lends m p → u'.Lends m p) ∨
      whole = false ∧ w' = .shadowed := by
  subst hw
  cases h with
  | same => exact .inl ⟨u, rfl, fun _ _ hp => hp⟩
  | reached hl => exact .inl ⟨_, rfl, hl⟩
  | moved hw => exact .inr ⟨hw, rfl⟩

theorem of_shadowed (h : Widens whole w w') (hw : w = .shadowed) : w' = .shadowed := by
  subst hw
  cases h with
  | same => rfl
  | moved => rfl

end Walk.Widens

namespace Ty

variable {t t' u v g h old new : Ty} {ts gs hs us : List Ty} {m n : Bool} {p : Place}
variable {ps qs : PlaceSet} {s rest : List Selector} {whole whole' : Bool}

/-- **The type `t'` is wider than `t`**: every path leads to the same point of both. -/
def Widens (whole : Bool) (t t' : Ty) : Prop := ∀ s, (t.follow s).Widens whole (t'.follow s)

namespace Widens

theorem refl (t : Ty) : Widens whole t t := fun _ => .same

theorem trans (h : Widens whole t u) (h' : Widens whole u v) : Widens whole t v :=
  fun s => (h s).trans (h' s)

theorem weaken (hw : whole' = true → whole = true) (h : Widens whole t t') :
    Widens whole' t t' := fun s => (h s).weaken hw

theorem reached (h : Widens whole t t') (hf : t'.follow s = .reached v) :
    ∃ u, t.follow s = .reached u ∧ ∀ m p, u.Lends m p → v.Lends m p := by
  have hs := h s
  rw [hf] at hs
  generalize t.follow s = w at hs
  cases hs with
  | same => exact ⟨v, rfl, fun _ _ hp => hp⟩
  | reached hl => exact ⟨_, rfl, hl⟩

theorem crossed (h : Widens whole t t') (hf : t'.follow s = .crossed m ps rest) :
    ∃ qs, t.follow s = .crossed m qs rest ∧ ∀ p ∈ qs, p ∈ ps := by
  have hs := h s
  rw [hf] at hs
  generalize t.follow s = w at hs
  cases hs with
  | same => exact ⟨ps, rfl, fun _ hp => hp⟩
  | crossed hs => exact ⟨_, rfl, hs⟩

theorem whole_nil (h : Widens whole t t') : (∀ m p, t.Lends m p → t'.Lends m p) ∧
    (whole = true → t.defined = true → t'.defined = true) := by
  have hs := h []
  rw [follow_nil, follow_nil] at hs
  cases hs with
  | same => exact ⟨fun _ _ hp => hp, fun _ hd => hd⟩
  | reached hl hd => exact ⟨hl, hd⟩

theorem lends (h : Widens whole t t') (hp : t.Lends m p) : t'.Lends m p := h.whole_nil.1 m p hp

/-- The types are compared as wholes, and one selector deeper. -/
theorem of_cons (hl : ∀ m p, t.Lends m p → t'.Lends m p)
    (hd : whole = true → t.defined = true → t'.defined = true)
    (hc : ∀ a s, (t.follow (a :: s)).Widens whole (t'.follow (a :: s))) : Widens whole t t' := by
  intro s
  cases s with
  | nil =>
    rw [follow_nil, follow_nil]
    exact .reached hl hd
  | cons a s => exact hc a s

/-- What has been moved out is wider than what was there. -/
theorem of_shadow (hl : ∀ m p, t.Lends m p → v.Lends m p) : Widens false t (.shadow v) :=
  of_cons (fun m p hp => lends_shadow.2 (hl m p hp)) nofun fun a s => by
    rw [follow_shadow]
    exact .moved rfl

theorem shadow (hl : ∀ m p, t.Lends m p → v.Lends m p) : Widens whole (.shadow t) (.shadow v) :=
  of_cons (fun m p hp => lends_shadow.2 (hl m p (lends_shadow.1 hp))) (fun _ hd => hd)
    fun a s => by
      rw [follow_shadow, follow_shadow]
      exact .same

theorem box (h : Widens whole t t') : Widens whole (.box t) (.box t') := by
  refine of_cons (fun m p hp => lends_box.2 (h.lends (lends_box.1 hp))) h.whole_nil.2 fun a s => ?_
  cases a with
  | deref => exact h s
  | index i => exact .same

theorem borrow (hs : ∀ p ∈ ps, p ∈ qs) : Widens whole (.borrow m ps) (.borrow m qs) := by
  refine of_cons (fun k p hp => ?_) (fun _ _ => rfl) fun a s => ?_
  · obtain ⟨e, hp⟩ := lends_borrow.1 hp
    exact lends_borrow.2 ⟨e, hs p hp⟩
  · cases a with
    | deref => exact .crossed hs
    | index i => exact .same

theorem compound (hl : ts.length = us.length)
    (h : ∀ (i : Nat) t u, ts[i]? = some t → us[i]? = some u → Widens whole t u) :
    Widens whole (.compound ts) (.compound us) := by
  refine of_cons (fun m p hp => ?_) (fun hw hd => ?_) fun a s => ?_
  · obtain ⟨t, ht, hp⟩ := lends_compound.1 hp
    obtain ⟨i, hi⟩ := List.mem_iff_getElem?.1 ht
    obtain ⟨u, hu⟩ := Refines.exists_getElem? hl hi
    exact lends_compound.2 ⟨u, List.mem_of_getElem? hu, (h i t u hi hu).lends hp⟩
  · rw [Ty.defined, allDefined_eq, List.all_eq_true] at hd ⊢
    intro u hu
    obtain ⟨i, hi⟩ := List.mem_iff_getElem?.1 hu
    obtain ⟨t, ht⟩ := Refines.exists_getElem? hl.symm hi
    exact (h i t u ht hi).whole_nil.2 hw (hd t (List.mem_of_getElem? ht))
  · cases a with
    | deref => exact .same
    | index i =>
      simp only [follow]
      cases ht : ts[i]? with
      | none =>
        have hu : us[i]? = none := by
          rw [List.getElem?_eq_none_iff] at ht ⊢
          omega
        rw [hu]
        exact .same
      | some t =>
        obtain ⟨u, hu⟩ := Refines.exists_getElem? hl ht
        rw [hu]
        exact h i t u ht hu s

/-- The components of a whole compound are whole, so a component may ask for no more. -/
theorem of_component (h : Widens t.defined u v) (ht : t ∈ ts) :
    Widens (Ty.compound ts).defined u v := by
  refine h.weaken fun hd => ?_
  rw [Ty.defined, allDefined_eq, List.all_eq_true] at hd
  exact hd t ht

/-- **A union is wider than both types.** It is whole where one of them is whole, if the other
is. -/
theorem of_union (hu : g.union h = some u) : Widens h.defined g u ∧ Widens g.defined h u := by
  have hj := joins_of_union hu
  clear hu
  induction hj with
  | unit => exact ⟨refl _, refl _⟩
  | int => exact ⟨refl _, refl _⟩
  | box _ ih => exact ih.imp box box
  | borrow =>
    exact ⟨borrow fun p hp => PlaceSet.mem_union.2 (.inl hp),
      borrow fun p hp => PlaceSet.mem_union.2 (.inr hp)⟩
  | shadow hs _ ih =>
    obtain ⟨hg, hh⟩ := ih
    obtain ⟨t, rfl | rfl⟩ := hs
    · exact ⟨shadow fun _ _ => hg.lends, of_shadow fun _ _ hp => hh.lends (lends_peel.2 hp)⟩
    · exact ⟨of_shadow fun _ _ hp => hg.lends (lends_peel.2 hp), shadow fun _ _ => hh.lends⟩
  | compound hus _ ih =>
    obtain ⟨hl, hl', each⟩ := unionAll_getElem? hus
    constructor
    · refine compound hl.symm fun i g u hg hu => ?_
      obtain ⟨-, h, -, hh, -⟩ := each i u hu
      exact (ih i g h u hg hh hu).1.of_component (List.mem_of_getElem? hh)
    · refine compound hl'.symm fun i h u hh hu => ?_
      obtain ⟨g, -, hg, -, -⟩ := each i u hu
      exact (ih i g h u hg hh hu).2.of_component (List.mem_of_getElem? hg)

/-- A wider part makes a wider type. -/
theorem of_replaceAt (hf : t.follow s = .reached old) (h : Widens whole old new) :
    Widens whole t (t.replaceAt s new) := by
  induction t, s, hf using reached_induction with
  | here =>
    rw [replaceAt_nil]
    exact h
  | box t s hf ih => exact box ih
  | component ts i t s hi hf ih =>
    refine compound (by simp) fun j w w' hw hw' => ?_
    rcases component_of_modify hw' with ⟨w₀, rfl, hw₀, rfl⟩ | ⟨-, hw₀⟩
    · cases hi.symm.trans hw₀
      cases hi.symm.trans hw
      exact ih
    · cases hw.symm.trans hw₀
      exact refl w

end Widens

end Ty

end Ownership
