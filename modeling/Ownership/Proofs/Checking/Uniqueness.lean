import Ownership.Proofs.Checking.Stable

/-!
# Unique borrows

A unique borrow gives the right to write, so the place must be reached through unique borrows only.
The checker looks at the first borrow on the way and at no other (`availability`). What is behind
it is settled by the shape of the variable, the same for all ways (`Shape.Unique`), so it is
enough that one way has been tried (`Env.Tried`).

* `unique_of_borrow`: **a place that has been tried and borrowed uniquely is reached through unique
  borrows only**, whichever targets are followed.
* `unique_of_borrow_handsOut`: a place that has not been tried may lie behind a shared borrow, and
  so may one whose borrow leads to a variable that has been hidden.
-/

namespace Ownership

open Relation

variable {c : Checker} {Γ : Env} {σ : String → Shape} {t : Ty} {s : Shape} {m : Bool}
variable {ps : PlaceSet} {π ρ rest : List Selector} {p q : Place} {root : Lifetime} {program : Term}

namespace Shape

/-- **All references that the path looks through are unique.** -/
def Unique : Shape → List Selector → Prop
  | box s, .deref :: π => s.Unique π
  | ref m s, .deref :: π => m = true ∧ s.Unique π
  | compound ss, .index i :: π =>
    match ss[i]? with
    | some s => s.Unique π
    | none => True
  | _, _ => True

theorem unique_nil (s : Shape) : s.Unique [] := by
  cases s <;> trivial

theorem unique_misfit (π : List Selector) : misfit.Unique π := by
  cases π <;> trivial

theorem unique_append : s.Unique (π ++ ρ) ↔ s.Unique π ∧ (s.part π).Unique ρ := by
  induction π generalizing s with
  | nil => simp [unique_nil]
  | cons a π ih =>
    cases s with
    | box s =>
      cases a with
      | deref => exact ih
      | index i => simp [Unique, part, unique_misfit]
    | ref m s =>
      cases a with
      | deref =>
        show (m = true ∧ s.Unique (π ++ ρ)) ↔ (m = true ∧ s.Unique π) ∧ (s.part π).Unique ρ
        rw [ih, and_assoc]
      | index i => simp [Unique, part, unique_misfit]
    | compound ss =>
      cases a with
      | deref => simp [Unique, part, unique_misfit]
      | index i =>
        simp only [List.cons_append, Unique, part]
        cases ss[i]? with
        | none => simp [unique_misfit]
        | some s => exact ih
    | _ => cases a <;> simp [Unique, part, unique_misfit]

/-- A path to a component looks through no reference. -/
theorem unique_of_components (h : .deref ∉ π) : s.Unique π := by
  induction π generalizing s with
  | nil => exact unique_nil s
  | cons a π ih =>
    obtain ⟨ha, hπ⟩ := not_or.1 (mt List.mem_cons.2 h)
    cases a with
    | deref => exact absurd rfl ha
    | index i =>
      cases s with
      | compound ss =>
        simp only [Unique]
        cases ss[i]? with
        | none => trivial
        | some s => exact ih hπ
      | _ => trivial

end Shape

/-! ### Paths into types -/

/-- **Only components lie behind**, after a unique borrow or no borrow at all. -/
def Walk.Clear : Walk → Prop
  | reached _ | notReference | misfit => True
  | crossed m _ rest => m = true ∧ .deref ∉ rest
  | shadowed => False

namespace Ty.Fits

/-- A path that crosses no borrow looks through no reference. -/
theorem unique_of_stops (h : t.Fits σ s) (hc : ∀ m ps rest, t.follow π ≠ .crossed m ps rest)
    (hs : t.follow π ≠ .shadowed) : s.Unique π := by
  induction π generalizing t s with
  | nil => exact Shape.unique_nil s
  | cons a π ih =>
    cases h with
    | box h =>
      cases a with
      | deref => exact ih h hc hs
      | index i => trivial
    | borrow =>
      cases a with
      | deref => exact absurd rfl (hc _ _ _)
      | index i => trivial
    | shadow => exact absurd (follow_shadow ..) hs
    | compound hl hcomp =>
      cases a with
      | deref => trivial
      | index i =>
        simp only [Shape.Unique]
        split
        · rename_i s hi
          obtain ⟨t, ht⟩ := Refines.exists_getElem? hl.symm hi
          simp only [follow, ht] at hc hs
          exact ih (hcomp i t s ht hi) hc hs
        · trivial
    | _ => trivial

/-- **Behind a borrow the path looks through the same references from each of the targets.** -/
theorem unique_of_crossed (h : t.Fits σ s) (hf : t.follow π = .crossed m ps rest) (hp : p ∈ ps) :
    s.Unique π ↔ m = true ∧ ((σ p.name).part p.path).Unique rest := by
  induction t, π, hf using Ty.crossed_induction generalizing s with
  | here =>
    cases h with
    | borrow _ hs =>
      rw [hs p hp]
      exact Iff.rfl
  | box t π hf ih =>
    cases h with
    | box h => exact ih h
  | component ts i t π hi hf ih =>
    cases h with
    | compound hl hc =>
      obtain ⟨s, hs⟩ := Refines.exists_getElem? hl hi
      simp only [Shape.Unique, hs]
      exact ih (hc i t s hi hs)

/-- What is clear looks through unique references. -/
theorem unique_of_clear (h : t.Fits σ s) (hf : (t.follow π).Clear) : s.Unique π := by
  cases hw : t.follow π with
  | crossed m ps rest =>
    rw [hw] at hf
    obtain ⟨⟨p, hp⟩, -⟩ := h.crossed hw
    exact (h.unique_of_crossed hw hp).2 ⟨hf.1, Shape.unique_of_components hf.2⟩
  | shadowed =>
    rw [hw] at hf
    exact hf.elim
  | _ => exact h.unique_of_stops (by rw [hw]; nofun) (by rw [hw]; nofun)

end Ty.Fits

/-! ### Ways through unique borrows -/

namespace Env

/-- The place leads on to `q` through a unique borrow. -/
def FollowsUnique (Γ : Env) (p q : Place) : Prop :=
  ∃ s ps rest t, Γ.get? p.name = some s ∧ s.ty.follow p.path = .crossed true ps rest ∧ t ∈ ps ∧
    q = t.extend rest

/-- A way through unique borrows comes to where only components lie behind. -/
def HasClearWay (Γ : Env) (p : Place) : Prop :=
  ∃ q s, ReflTransGen Γ.FollowsUnique p q ∧ Γ.get? q.name = some s ∧ (s.ty.follow q.path).Clear

/-- **One way behind the first borrow has been tried**, if more than components lie there. -/
def Tried (Γ : Env) (p : Place) : Prop :=
  ∀ s m ps rest, Γ.get? p.name = some s → s.ty.follow p.path = .crossed m ps rest → .deref ∈ rest →
    ∃ t ∈ ps, Γ.HasClearWay (t.extend rest)

/-- What has a clear way is unique, whichever way is taken. -/
theorem Shaped.unique_of_clearWay (h : Γ.Shaped σ) (hp : Γ.HasClearWay p) :
    (σ p.name).Unique p.path := by
  obtain ⟨q, s, hw, hs, hclear⟩ := hp
  induction hw using ReflTransGen.head_induction_on with
  | refl => exact (h _ s hs).unique_of_clear hclear
  | head hstep _ ih =>
    obtain ⟨s, ps, rest, t, hs, hf, ht, rfl⟩ := hstep
    obtain ⟨-, hpart⟩ := Shape.unique_append.1 ih
    exact ((h _ s hs).unique_of_crossed hf ht).2 ⟨rfl, hpart⟩

/-- What is unique leads on through unique borrows, to places that are unique behind them. -/
theorem Shaped.unique_crossed {s : Slot} (h : Γ.Shaped σ) (hp : (σ p.name).Unique p.path)
    (hs : Γ.get? p.name = some s) (hf : s.ty.follow p.path = .crossed m ps rest) :
    m = true ∧ ∀ t ∈ ps, ((σ t.name).part t.path).Unique rest := by
  have hfit : s.ty.Fits σ (σ p.name) := h _ s hs
  obtain ⟨⟨t₀, ht₀⟩, -⟩ := hfit.crossed hf
  exact ⟨((hfit.unique_of_crossed hf ht₀).1 hp).1, fun t ht =>
    ((hfit.unique_of_crossed hf ht).1 hp).2⟩

end Env

/-- **What is borrowed uniquely is reached through unique references.** -/
def LentUnique : Judgement := Lent fun σ m p => m = true → (σ p.name).Unique p.path

/-- Every place on a way from a unique place is unique. -/
theorem LentUnique.of_way {T : Ty} (hs : Γ.Shaped σ) (h : LentUnique σ Γ T)
    (hp : (σ p.name).Unique p.path) (hw : ReflTransGen Γ.Follows p q) :
    (σ q.name).Unique q.path := by
  induction hw with
  | refl => exact hp
  | tail _ hstep ih =>
    obtain ⟨s, m, ps, rest, t, hslot, hf, ht, rfl⟩ := hstep
    obtain ⟨rfl, hrest⟩ := hs.unique_crossed ih hslot hf
    have hlent : (σ t.name).Unique t.path := h.1 _ s true t hslot (Ty.lends_of_crossed hf ht) rfl
    exact Shape.unique_append.2 ⟨hlent, hrest t ht⟩

/-- The checker looks at the first borrow on the way to what it borrows. -/
theorem Checker.available_of_borrow {T : Ty} (h : borrow Γ true p = .ok T) :
    availability Γ p true = .available := by
  simp only [borrow, Traced.bind_eq_ok, if_true] at h
  obtain ⟨-, -, -, -, ⟨⟩, hr, -⟩ := h
  exact require_ok.1 hr

theorem Env.Shaped.unique_of_tried {T : Ty} (hs : Γ.Shaped σ) (hp : Γ.Tried p)
    (hb : Checker.borrow Γ true p = .ok T) : (σ p.name).Unique p.path := by
  obtain ⟨s, hslot, hav, -, -, -⟩ := Checker.borrow_ok hb
  have hfit : s.ty.Fits σ (σ p.name) := hs _ s hslot
  rcases availability_false hslot hav with ⟨u, hf, -⟩ | ⟨m, ps, rest, hf⟩
  · exact hfit.unique_of_clear (by rw [hf]; trivial)
  · -- the checker has looked at the first borrow
    have hm : m = true := by
      have hw := Checker.available_of_borrow hb
      rw [availability, hslot] at hw
      cases m with
      | true => rfl
      | false => simp [hf] at hw
    subst hm
    by_cases hd : .deref ∈ rest
    · obtain ⟨t, ht, hclear⟩ := hp s true ps rest hslot hf hd
      obtain ⟨-, hpart⟩ := Shape.unique_append.1 (hs.unique_of_clearWay hclear)
      exact (hfit.unique_of_crossed hf ht).2 ⟨rfl, hpart⟩
    · exact hfit.unique_of_clear (by rw [hf]; exact ⟨rfl, hd⟩)

theorem stable_lentUnique {ok : Site → Prop}
    (htry : ∀ Γ l sp p T, ok ⟨Γ, l, .borrow sp true p⟩ → Checker.borrow Γ true p = .ok T →
      Γ.Tried p)
    (hx : c.extensions ≠ [] → Tidy c ok) : Stable c ok LentUnique :=
  .lent (fun hσ h hm => by rw [hσ]; exact h hm) (fun hs _ hok hb hm => by
    subst hm
    exact hs.unique_of_tried (htry _ _ _ _ _ hok hb) hb) fun he => (hx he).neat

/-- **A place that has been tried and borrowed uniquely is reached through unique borrows only**,
whichever targets are followed on the way, if the same holds of all places that the program has
borrowed uniquely so far. -/
theorem unique_of_borrow {T : Ty} {Δ : Env} {l : Lifetime} {sp : Span}
    (ho : c.Orderly root program)
    (hx : c.extensions ≠ [] → Tidy c (c.Visits ⟨.empty, root, program⟩))
    (htry : ∀ Γ l sp p T, c.Visits ⟨.empty, root, program⟩ ⟨Γ, l, .borrow sp true p⟩ →
      Checker.borrow Γ true p = .ok T → Γ.Tried p)
    (hr : c.Reaches ⟨.empty, root, program⟩ Γ) (hp : Γ.Tried p)
    (hb : (c.apply Γ l (.borrow sp true p)).result = .ok (Δ, T))
    (hw : ReflTransGen Γ.Follows p q) {s : Slot} (hs : Γ.get? q.name = some s)
    (hf : s.ty.follow q.path = .crossed m ps rest) : m = true := by
  have law : Stable c (c.Visits ⟨.empty, root, program⟩) LentUnique := stable_lentUnique htry hx
  obtain ⟨U, -, σ, hkept⟩ := law.reaches (.empty ho Lent.empty) (fun _ hb => hb) hr
  obtain ⟨-, hb⟩ := Checker.apply_borrow hb
  have hplace : (σ p.name).Unique p.path := hkept.shaped.unique_of_tried hp hb
  have hway : (σ q.name).Unique q.path := hkept.holds.of_way hkept.shaped hplace hw
  exact (hkept.shaped.unique_crossed hway hs hf).1

/-- Looks for a clear way through fewer than `n` unique borrows. -/
def Env.clearWay (Γ : Env) : Nat → Place → Bool
  | 0, _ => false
  | n + 1, p =>
    match Γ.get? p.name with
    | none => false
    | some s =>
      match s.ty.follow p.path with
      | .crossed true ps rest =>
        !rest.contains .deref || ps.toList.any fun t => Γ.clearWay n (t.extend rest)
      | .crossed false _ _ | .shadowed => false
      | .reached _ | .notReference | .misfit => true

theorem Env.clearWay_sound {n : Nat} (h : Γ.clearWay n p = true) : Γ.HasClearWay p := by
  induction n generalizing p with
  | zero => cases h
  | succ n ih =>
    rw [clearWay] at h
    cases hs : Γ.get? p.name with
    | none => simp [hs] at h
    | some s =>
      rw [hs] at h
      cases hf : s.ty.follow p.path with
      | crossed m ps rest =>
        cases m with
        | false => simp [hf] at h
        | true =>
          simp only [hf, Bool.or_eq_true, Bool.not_eq_true', List.contains_eq_mem,
            decide_eq_false_iff_not, List.any_eq_true] at h
          rcases h with h | ⟨t, ht, h⟩
          · exact ⟨p, s, .refl, hs, by rw [hf]; exact ⟨rfl, h⟩⟩
          · obtain ⟨q, s', hw, hend⟩ := ih h
            exact ⟨q, s', .head ⟨s, ps, rest, t, hs, hf, ht, rfl⟩ hw, hend⟩
      | shadowed => simp [hf] at h
      | _ => exact ⟨p, s, .refl, hs, by rw [hf]; trivial⟩

/-- Tests one way behind the first borrow. -/
def Env.tries (Γ : Env) (n : Nat) (p : Place) : Bool :=
  match Γ.get? p.name with
  | none => true
  | some s =>
    match s.ty.follow p.path with
    | .crossed _ ps rest =>
      !rest.contains .deref || ps.toList.any fun t => Γ.clearWay n (t.extend rest)
    | _ => true

theorem Env.tries_sound {n : Nat} (h : Γ.tries n p = true) : Γ.Tried p := by
  intro s m ps rest hs hf hd
  simp only [tries, hs, hf, Bool.or_eq_true, Bool.not_eq_true', List.contains_eq_mem,
    decide_eq_false_iff_not, List.any_eq_true] at h
  obtain ⟨t, ht, h⟩ := h.resolve_left (not_not.2 hd)
  exact ⟨t, ht, clearWay_sound h⟩

/-- All places that the program borrows uniquely are tried. -/
theorem Checker.tried_of_sites {n : Nat} {a : Site} {l : Lifetime} {sp : Span}
    (h : (c.sites a.env a.lifetime a.term).all (fun b => match b.term with
      | .borrow _ true p => b.env.tries n p
      | _ => true) = true) (hv : c.Visits a ⟨Γ, l, .borrow sp true p⟩) : Γ.Tried p :=
  Env.tries_sound (List.all_eq_true.1 h _ (mem_sites hv))

/-- `{ let mut x = 1; let mut y = &mut x; let mut z = &mut y; let mut w = &mut **z; }` -/
def borrowBehindTwo : Term :=
  .block {} (.inside 1 (.root 0)) [.letMut {} "x" {} (.value {} (.int 1)),
    .letMut {} "y" {} (.borrow {} true (.var "x")),
    .letMut {} "z" {} (.borrow {} true (.var "y")),
    .letMut {} "w" {} (.borrow {} true (Place.var "z").deref.deref)]

/-- The variables before the last statement. -/
def twoBorrows : Env := .declaring (.inside 1 (.root 0))
  [("x", .int), ("y", .borrowOf true (.var "x")), ("z", .borrowOf true (.var "y"))]

theorem unique_of_borrow_borrowBehindTwo :
    Checker.Orderly {} (.root 0) borrowBehindTwo ∧
    (∀ Γ l sp p T, Checker.Visits {} ⟨.empty, .root 0, borrowBehindTwo⟩ ⟨Γ, l, .borrow sp true p⟩ →
      Checker.borrow Γ true p = .ok T → Γ.Tried p) ∧
    Checker.Reaches {} ⟨.empty, .root 0, borrowBehindTwo⟩ twoBorrows ∧
    twoBorrows.Tried (Place.var "z").deref.deref ∧
    ∀ q s m ps rest, ReflTransGen twoBorrows.Follows (Place.var "z").deref.deref q →
      twoBorrows.get? q.name = some s → s.ty.follow q.path = .crossed m ps rest → m = true := by
  have ho : Checker.Orderly {} (.root 0) borrowBehindTwo :=
    ⟨by simp [borrowBehindTwo, Term.Nested, Term.AllNested, Lifetime.parent?],
      fun h => absurd rfl h⟩
  have htry : ∀ Γ l sp p T, Checker.Visits {} ⟨.empty, .root 0, borrowBehindTwo⟩
      ⟨Γ, l, .borrow sp true p⟩ → Checker.borrow Γ true p = .ok T → Γ.Tried p :=
    fun Γ l sp p T hv _ => Checker.tried_of_sites (n := 4) (by decide) hv
  have hr : Checker.Reaches {} ⟨.empty, .root 0, borrowBehindTwo⟩ twoBorrows :=
    ⟨_, .single (.statementAt 3 rfl rfl), .inl rfl⟩
  have hb : (Checker.apply {} twoBorrows (.inside 1 (.root 0))
      (.borrow {} true (Place.var "z").deref.deref)).result =
        .ok (twoBorrows, .borrowOf true (Place.var "z").deref.deref) := rfl
  have hp : twoBorrows.Tried (Place.var "z").deref.deref := Env.tries_sound (n := 4) (by decide)
  exact ⟨ho, htry, hr, hp, fun q s m ps rest hw hs hf =>
    unique_of_borrow ho (fun h => absurd rfl h) htry hr hp hb hw hs hf⟩

/-! ### Places that have not been tried -/

/-- `{ let mut x = 1; let mut y = &x; let mut z = &mut y; let mut w = &mut **z; }` -/
def sharedBehindUnique : Term :=
  .block {} (.inside 1 (.root 0)) [.letMut {} "x" {} (.value {} (.int 1)),
    .letMut {} "y" {} (.borrow {} false (.var "x")),
    .letMut {} "z" {} (.borrow {} true (.var "y")),
    .letMut {} "w" {} (.borrow {} true (Place.var "z").deref.deref)]

/-- `{ let mut a = 1; let mut b = 2; let mut x = if (let mut x = &mut a) == (let mut y = &mut *x)
{ &b } else { &b }; let mut w = &mut *y; }`: the outer `x` hides the inner one, where `y` leads. -/
def uniqueHidden : Term :=
  .block {} (.inside 1 (.root 0)) [.letMut {} "a" {} (.value {} (.int 1)),
    .letMut {} "b" {} (.value {} (.int 2)),
    .letMut {} "x" {} (.ext {} 40 [.letMut {} "x" {} (.borrow {} true (.var "a")),
      .letMut {} "y" {} (.borrow {} true (Place.var "x").deref), .borrow {} false (.var "b"),
      .borrow {} false (.var "b")]),
    .letMut {} "w" {} (.borrow {} true (Place.var "y").deref)]

/-- The program is accepted. On the way `p` is borrowed uniquely in `Γ`, although a shared borrow is
crossed on a way from there. -/
def HandsOut (c : Checker) (program : Term) (Γ : Env) (p : Place) : Prop :=
  (c.checkProgram (.root 0) program).result = .ok .unit ∧ c.Orderly (.root 0) program ∧
    c.Reaches ⟨.empty, .root 0, program⟩ Γ ∧
    (∃ l sp, (c.apply Γ l (.borrow sp true p)).result = .ok (Γ, .borrowOf true p)) ∧
    ∃ q s ps rest, ReflTransGen Γ.Follows p q ∧ Γ.get? q.name = some s ∧
      s.ty.follow q.path = .crossed false ps rest

/-- The variables of `sharedBehindUnique` before the last statement. -/
def sharedBehind : Env := .declaring (.inside 1 (.root 0))
  [("x", .int), ("y", .borrowOf false (.var "x")), ("z", .borrowOf true (.var "y"))]

/-- The variables of `uniqueHidden` before the last statement. -/
def hiddenBehind : Env := .declaring (.inside 1 (.root 0))
  [("a", .int), ("b", .int), ("x", .borrowOf false (.var "b")),
    ("y", .borrowOf true (Place.var "x").deref)]

/-- **The checker borrows uniquely what lies behind a shared borrow**, two borrows away or through a
variable that another one hides. In the latter case every place that has been borrowed uniquely has
been tried. -/
theorem unique_of_borrow_handsOut :
    HandsOut {} sharedBehindUnique sharedBehind (Place.var "z").deref.deref ∧
      HandsOut { extensions := Extension.all } uniqueHidden hiddenBehind (Place.var "y").deref ∧
      ∀ Γ l sp p, Checker.Visits { extensions := Extension.all } ⟨.empty, .root 0, uniqueHidden⟩
        ⟨Γ, l, .borrow sp true p⟩ → Γ.Tried p := by
  refine ⟨⟨rfl, ⟨?_, fun h => absurd rfl h⟩, ?_, ?_, ?_⟩,
    ⟨rfl, ⟨?_, fun _ x hx => Env.ne_temporary ?_⟩, ?_, ?_, ?_⟩, fun Γ l sp p hv => ?_⟩
  · simp [sharedBehindUnique, Term.Nested, Term.AllNested, Lifetime.parent?]
  · exact ⟨_, .single (.statementAt 3 rfl rfl), .inl rfl⟩
  · exact ⟨.inside 1 (.root 0), {}, rfl⟩
  · refine ⟨(Place.var "y").deref, ⟨.borrowOf false (.var "x"), .inside 1 (.root 0)⟩,
      .singleton (.var "x"), [], .single ?_, by decide, rfl⟩
    exact ⟨⟨.borrowOf true (.var "y"), .inside 1 (.root 0)⟩, true, .singleton (.var "y"), [.deref],
      .var "y", by decide, rfl, PlaceSet.mem_singleton.2 rfl, rfl⟩
  · simp [uniqueHidden, Term.Nested, Term.AllNested, Lifetime.parent?]
  · revert x
    decide
  · exact ⟨_, .single (.statementAt 3 rfl rfl), .inl rfl⟩
  · exact ⟨.inside 1 (.root 0), {}, rfl⟩
  · refine ⟨(Place.var "x").deref, ⟨.borrowOf false (.var "b"), .inside 1 (.root 0)⟩,
      .singleton (.var "b"), [], .single ?_, by decide, rfl⟩
    exact ⟨⟨.borrowOf true (Place.var "x").deref, .inside 1 (.root 0)⟩, true,
      .singleton (Place.var "x").deref, [], (Place.var "x").deref, by decide, rfl,
      PlaceSet.mem_singleton.2 rfl, rfl⟩
  · exact Checker.tried_of_sites (n := 4) (by decide) hv

end Ownership
