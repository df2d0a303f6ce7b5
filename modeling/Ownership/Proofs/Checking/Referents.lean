import Ownership.Proofs.Checking.Knots

/-!
# Types of borrowed places

What is borrowed must fit the types on its way. The checker tests that up to the first borrow, and
types nothing behind it. What lies there has one shape, whichever target is followed, so it is
enough that one way arrives somewhere (`Env.Arrives`): then all of them do.

* `Env.Shaped.exists_typeOf`: a place that has a shape has a type, unless something on the way has
  been moved out or a borrow leads back to itself.
* `typed_of_borrow`: **a place that is borrowed has a type**, in programs that use no extension and
  tie no knot, if all that is borrowed arrives.
* `typed_of_borrow_untyped`: a place that does not arrive may have no type, and so may one behind a
  knot.
-/

namespace Ownership

open Relation

variable {c : Checker} {Γ : Env} {σ : String → Shape} {t T : Ty} {f : Shape} {m : Bool}
variable {ps : PlaceSet} {π rest : List Selector} {p q : Place} {n : Nat} {s : Slot}
variable {root : Lifetime} {program : Term}

/-! ### Places that fit -/

/-- A path that the type does not fit is one that the shape does not fit. -/
theorem Ty.Fits.misfit_of_stuck (h : t.Fits σ f)
    (hf : t.follow π = .notReference ∨ t.follow π = .misfit) : f.part π = .misfit := by
  induction π generalizing t f with
  | nil => simp [follow_nil] at hf
  | cons a π ih =>
    cases h with
    | box h =>
      cases a with
      | deref => exact ih h hf
      | index i => rfl
    | borrow =>
      cases a with
      | deref => simp [follow] at hf
      | index i => rfl
    | shadow => simp [follow_shadow] at hf
    | compound hl hc =>
      cases a with
      | deref => rfl
      | index i =>
        simp only [Shape.part]
        split
        · rename_i f hi
          obtain ⟨t, ht⟩ := Refines.exists_getElem? hl.symm hi
          simp only [follow, ht] at hf
          exact ih (hc i t f ht hi) hf
        · rfl
    | _ => cases a <;> rfl

namespace Env

/-- Where a way comes to an end the place fits. -/
theorem Shaped.ne_misfit_of_lands {x : String} (h : Γ.Shaped σ) (hx : Γ.Lands p x) :
    (σ p.name).part p.path ≠ .misfit := by
  obtain ⟨q, s, u, hw, rfl, hs, hf⟩ := hx
  rw [← h.part_of_way hw]
  exact ((h _ s hs).reached hf).ne_misfit

/-- **A place that fits has a type** if nothing on the ways from it has been moved out, and no
borrow on them leads back. The induction is on how many borrows are crossed. -/
theorem Shaped.exists_typeUpTo (h : Γ.Shaped σ) (ha : Γ.Acyclic) (hr : Γ.LentReadable)
    (hs : Γ.get? p.name = some s) (hsound : Γ.Sound p) (hp : (σ p.name).part p.path ≠ .misfit)
    (hn : Γ.rank p.name < n) : ∃ T, Ownership.typeUpTo Γ n p = .ok T := by
  induction n generalizing p s with
  | zero => omega
  | succ n ih =>
    have hfit : s.ty.Fits σ (σ p.name) := h _ s hs
    rw [Ownership.typeUpTo, declared_ok.2 hs, Traced.ok_bind]
    cases hf : s.ty.follow p.path with
    | reached u => exact ⟨u, rfl⟩
    | crossed m ps rest =>
      obtain ⟨-, hall⟩ := hfit.crossed hf
      refine exists_unionOver (σ := σ) (s := (σ p.name).part p.path) (by simp) fun q hq => ?_
      obtain ⟨t, ht, rfl⟩ := List.mem_map.1 hq
      -- the target is in scope and of lower rank, and the place behind it is of the same shape
      have hstep : Γ.Follows p (t.extend rest) := ⟨s, m, ps, rest, t, hs, hf, ht, rfl⟩
      obtain ⟨s', hs', -⟩ := hr _ s m t hs (Ty.lends_of_crossed hf ht)
      have hpart : (σ t.name).part (t.path ++ rest) = (σ p.name).part p.path := hall t ht
      have hrank : Γ.rank (t.extend rest).name < Γ.rank p.name := ha.rank_lt hstep.points
      obtain ⟨u, hu⟩ := ih (p := t.extend rest) hs' (.of_follows hr hstep) (hpart.trans_ne hp)
        (by omega)
      exact ⟨u, hu, hpart ▸ h.typeUpTo hu⟩
    | shadowed => exact absurd hf (hsound s hs).1
    | notReference => exact absurd (hfit.misfit_of_stuck (.inl hf)) hp
    | misfit => exact absurd (hfit.misfit_of_stuck (.inr hf)) hp

theorem Shaped.exists_typeOf (h : Γ.Shaped σ) (ha : Γ.Acyclic) (hr : Γ.LentReadable)
    (hs : Γ.get? p.name = some s) (hsound : Γ.Sound p) (hp : (σ p.name).part p.path ≠ .misfit) :
    ∃ T, Ownership.typeOf Γ p = .ok T := by
  have hrank := Γ.rank_le p.name
  have hbound := lt_crossings Γ.weight Γ.targets.length p
  exact h.exists_typeUpTo ha hr hs hsound hp (by omega)

end Env

/-! ### Places that are borrowed -/

/-- **Some way from the place comes to an end**, if it goes on behind a borrow. -/
def Env.Arrives (Γ : Env) (p : Place) : Prop :=
  ∀ s m ps rest, Γ.get? p.name = some s → s.ty.follow p.path = .crossed m ps rest → rest ≠ [] →
    ∃ x, Γ.Lands p x

/-- The places that are borrowed fit. -/
def LentFits : Judgement := Lent fun σ _ p => (σ p.name).part p.path ≠ .misfit

/-- **A place that arrives fits when it is borrowed**, if all that has been borrowed before fits. -/
theorem Env.Shaped.ne_misfit_of_borrow (h : Γ.Shaped σ) (hl : LentFits σ Γ t) (hp : Γ.Arrives p)
    (hb : Checker.borrow Γ m p = .ok T) : (σ p.name).part p.path ≠ .misfit := by
  obtain ⟨s, hs, hav, -, -, -⟩ := Checker.borrow_ok hb
  have hfit : s.ty.Fits σ (σ p.name) := h _ s hs
  rcases availability_false hs hav with ⟨u, hf, -⟩ | ⟨n, ps, rest, hf⟩
  · exact (hfit.reached hf).ne_misfit
  · by_cases hrest : rest = []
    · -- the place is where one of the targets is
      subst hrest
      obtain ⟨⟨q, hq⟩, hall⟩ := hfit.crossed hf
      have htarget : (σ q.name).part q.path ≠ .misfit :=
        hl.1 _ s n q hs (Ty.lends_of_crossed hf hq)
      have hpart := hall q hq
      rw [List.append_nil] at hpart
      rwa [← hpart]
    · obtain ⟨x, hx⟩ := hp s n ps rest hs hf hrest
      exact h.ne_misfit_of_lands hx

theorem stable_lentFits {ok : Site → Prop}
    (harrive : ∀ Γ l sp m p T, ok ⟨Γ, l, .borrow sp m p⟩ → Checker.borrow Γ m p = .ok T →
      Γ.Arrives p)
    (hx : c.extensions ≠ [] → Tidy c ok) : Stable c ok LentFits :=
  .lent (fun hσ h => by rwa [hσ]) (fun hs hl hok hb =>
    hs.ne_misfit_of_borrow hl (harrive _ _ _ _ _ _ hok hb) hb) fun he => (hx he).neat

/-- **A place that is borrowed has a type**, in every environment that is passed through: its path
fits the types on all ways, and the types at their ends have a union. -/
theorem typed_of_borrow {Δ : Env} {l : Lifetime} {sp : Span} (hc : c.extensions = [])
    (ho : c.Orderly root program) (hk : c.TiesNoKnot ⟨.empty, root, program⟩)
    (harrive : ∀ Γ l sp m p T, c.Visits ⟨.empty, root, program⟩ ⟨Γ, l, .borrow sp m p⟩ →
      Checker.borrow Γ m p = .ok T → Γ.Arrives p)
    (hr : c.Reaches ⟨.empty, root, program⟩ Γ) (hp : Γ.Arrives p)
    (hb : (c.apply Γ l (.borrow sp m p)).result = .ok (Δ, T)) : ∃ U, typeOf Γ p = .ok U := by
  have hfits : Stable c (c.Visits ⟨.empty, root, program⟩) LentFits :=
    stable_lentFits harrive fun h => absurd hc h
  have havailable := Checker.available_law hc ho
  have hacyclic := Checker.acyclic_of_reaches hc ho hk hr
  obtain ⟨U₁, -, σ, hkept⟩ := hfits.reaches (.empty ho Lent.empty) (fun _ hb => hb) hr
  obtain ⟨U₂, -, _, hread⟩ := havailable.reaches (.empty ho .empty) (fun _ hb => hb) hr
  obtain ⟨-, hb⟩ := Checker.apply_borrow hb
  have hplace := hkept.shaped.ne_misfit_of_borrow hkept.holds hp hb
  obtain ⟨s, hs, hav, -, -, -⟩ := Checker.borrow_ok hb
  have hsound := (Env.readable_of_available hs hav).sound []
  rw [Place.extend, List.append_nil] at hsound
  exact hkept.shaped.exists_typeOf hacyclic hread.holds.2.1 hs hsound hplace

/-! ### A test for places that arrive -/

/-- Tests that some way comes to an end. -/
def Env.arrives (Γ : Env) (n : Nat) (p : Place) : Bool :=
  match explore Γ.onward n [p] with
  | some ways => ways.any fun q => match (Γ.get? q.name).map fun s => s.ty.follow q.path with
    | some (Walk.reached _) => true
    | _ => false
  | none => false

theorem Env.arrives_sound (h : Γ.arrives n p = true) : Γ.Arrives p := by
  intro _ _ _ _ _ _ _
  rw [arrives] at h
  split at h
  · rename_i ways hways
    obtain ⟨q, hq, hend⟩ := List.any_eq_true.1 h
    obtain ⟨p', hp', hw⟩ := (mem_explore (fun _ _ => mem_onward) hways).1 hq
    cases List.mem_singleton.1 hp'
    split at hend
    · rename_i u hu
      obtain ⟨s, hs, hf⟩ := Option.map_eq_some_iff.1 hu
      exact ⟨q.name, q, s, u, hw, rfl, hs, hf⟩
    · cases hend
  · cases h

/-- All places that the program borrows arrive. -/
theorem Checker.arrives_of_sites {a : Site} {l : Lifetime} {sp : Span}
    (h : (c.sites a.env a.lifetime a.term).all (fun b => match b.term with
      | .borrow _ _ p => b.env.arrives n p
      | _ => true) = true) (hv : c.Visits a ⟨Γ, l, .borrow sp m p⟩) : Γ.Arrives p :=
  Env.arrives_sound (List.all_eq_true.1 h _ (mem_sites hv))

/-- `{ let mut x = 1; let mut y = &x; let mut z = &y; let mut w = &p; }` -/
def borrowBehind (p : Place) : Term :=
  .block {} (.inside 1 (.root 0)) [.letMut {} "x" {} (.value {} (.int 1)),
    .letMut {} "y" {} (.borrow {} false (.var "x")),
    .letMut {} "z" {} (.borrow {} false (.var "y")), .letMut {} "w" {} (.borrow {} false p)]

/-- The variables of `borrowBehind` before the last statement. -/
def behind : Env := .declaring (.inside 1 (.root 0))
  [("x", .int), ("y", .borrowOf false (.var "x")), ("z", .borrowOf false (.var "y"))]

theorem reaches_behind (p : Place) :
    Checker.Reaches {} ⟨.empty, .root 0, borrowBehind p⟩ behind :=
  ⟨_, .single (.statementAt 3 rfl rfl), .inl rfl⟩

theorem orderly_borrowBehind (p : Place) : Checker.Orderly {} (.root 0) (borrowBehind p) :=
  ⟨by simp [borrowBehind, Term.Nested, Term.AllNested, Lifetime.parent?], fun h => absurd rfl h⟩

theorem typed_of_borrow_borrowBehind :
    Checker.Orderly {} (.root 0) (borrowBehind (Place.var "z").deref.deref) ∧
    Checker.TiesNoKnot {} ⟨.empty, .root 0, borrowBehind (Place.var "z").deref.deref⟩ ∧
    (∀ Γ l sp m p T, Checker.Visits {} ⟨.empty, .root 0, borrowBehind (Place.var "z").deref.deref⟩
      ⟨Γ, l, .borrow sp m p⟩ → Checker.borrow Γ m p = .ok T → Γ.Arrives p) ∧
    Checker.Reaches {} ⟨.empty, .root 0, borrowBehind (Place.var "z").deref.deref⟩ behind ∧
    behind.Arrives (Place.var "z").deref.deref ∧
    ∃ U, typeOf behind (Place.var "z").deref.deref = .ok U := by
  have ho := orderly_borrowBehind (Place.var "z").deref.deref
  have hk : Checker.TiesNoKnot {} ⟨.empty, .root 0, borrowBehind (Place.var "z").deref.deref⟩ :=
    Checker.tiesNoKnot_of_sites (n := 8) (by decide)
  have harrive : ∀ Γ l sp m p T, Checker.Visits {}
      ⟨.empty, .root 0, borrowBehind (Place.var "z").deref.deref⟩ ⟨Γ, l, .borrow sp m p⟩ →
      Checker.borrow Γ m p = .ok T → Γ.Arrives p :=
    fun Γ l sp m p T hv _ => Checker.arrives_of_sites (n := 8) (by decide) hv
  have hr := reaches_behind (Place.var "z").deref.deref
  have hp : behind.Arrives (Place.var "z").deref.deref :=
    Env.arrives_sound (n := 8) (by decide)
  have hb : (Checker.apply {} behind (.inside 1 (.root 0))
      (.borrow {} false (Place.var "z").deref.deref)).result =
        .ok (behind, .borrowOf false (Place.var "z").deref.deref) := rfl
  exact ⟨ho, hk, harrive, hr, hp, typed_of_borrow rfl ho hk harrive hr hp hb⟩

/-! ### Places without a type -/

/-- The program is accepted. On the way `p` can be borrowed in `Γ`, although it has no type, however
many borrows are followed. -/
def Untyped (program : Term) (Γ : Env) (p : Place) : Prop :=
  (Checker.checkProgram {} (.root 0) program).result = .ok .unit ∧
    Checker.Orderly {} (.root 0) program ∧
    Checker.Reaches {} ⟨.empty, .root 0, program⟩ Γ ∧
    (∃ l sp m, (Checker.apply {} Γ l (.borrow sp m p)).result = .ok (Γ, .borrowOf m p)) ∧
    ∀ n U, typeUpTo Γ n p ≠ .ok U

theorem untyped_behind (n : Nat) (U : Ty) : typeUpTo behind n (Place.var "y").deref.deref ≠ .ok U :=
  match n with
  | 0 => nofun
  | 1 => nofun
  | _ + 2 => nofun

/-- `u` leads to `z`, and `*z` has no type. -/
theorem untyped_woven (n : Nat) (U : Ty) :
    typeUpTo (woven knot) n (Place.var "u").deref.deref ≠ .ok U := by
  intro h
  cases n with
  | zero => cases h
  | succ n =>
    have hu : typeUpTo (woven knot) (n + 1) (Place.var "u").deref.deref =
        unionOver (typeUpTo (woven knot) n) none
          [(Place.var "x").deref, (Place.var "z").deref] := rfl
    rw [hu, unionOver, Traced.bind_eq_ok] at h
    obtain ⟨t, -, h⟩ := h
    rw [unionOver, (endless_woven n).2, Traced.error_bind] at h
    cases h

/-- One way from `**u` leads through `x` to `a`. -/
theorem arrives_woven : (woven knot).Arrives (Place.var "u").deref.deref := by
  have hu : (woven knot).get? "u" =
      some ⟨.borrow true (.ofList [.var "x", .var "z"]), .inside 1 (.root 0)⟩ := by decide
  have hx : (woven knot).get? "x" =
      some ⟨.borrow true (.ofList [.var "a", knot]), .inside 1 (.root 0)⟩ := by decide
  have ha : (woven knot).get? "a" = some ⟨.int, .inside 1 (.root 0)⟩ := by decide
  have first : (woven knot).Follows (Place.var "u").deref.deref (Place.var "x").deref :=
    ⟨_, true, _, [.deref], .var "x", hu, rfl, by decide, rfl⟩
  have second : (woven knot).Follows (Place.var "x").deref (.var "a") :=
    ⟨_, true, _, [], .var "a", hx, rfl, by decide, rfl⟩
  intro _ _ _ _ _ _ _
  exact ⟨"a", .var "a", _, .int, .tail (.single first) second, rfl, ha, rfl⟩

/-- **A place that is borrowed may have no type**: `**y` where `*y` is an integer, and `**u` where a
way from it leads to a knot. The first program ties no knot, and in the second one all that is
borrowed arrives. -/
theorem typed_of_borrow_untyped :
    (Untyped (borrowBehind (Place.var "y").deref.deref) behind (Place.var "y").deref.deref ∧
      Checker.TiesNoKnot {} ⟨.empty, .root 0, borrowBehind (Place.var "y").deref.deref⟩) ∧
    Untyped (weave knot) (woven knot) (Place.var "u").deref.deref ∧
    (woven knot).Arrives (Place.var "u").deref.deref ∧
    ∀ Γ l sp m p, Checker.Visits {} ⟨.empty, .root 0, weave knot⟩ ⟨Γ, l, .borrow sp m p⟩ →
      Γ.Arrives p := by
  have behindInt : Untyped (borrowBehind (Place.var "y").deref.deref) behind
      (Place.var "y").deref.deref :=
    ⟨rfl, orderly_borrowBehind _, reaches_behind _, ⟨.inside 1 (.root 0), {}, false, rfl⟩,
      untyped_behind⟩
  have behindKnot : Untyped (weave knot) (woven knot) (Place.var "u").deref.deref :=
    ⟨rfl, orderly_weave knot, reaches_woven rfl, ⟨.inside 1 (.root 0), {}, false, rfl⟩,
      untyped_woven⟩
  exact ⟨⟨behindInt, Checker.tiesNoKnot_of_sites (n := 8) (by decide)⟩, behindKnot, arrives_woven,
    fun Γ l sp m p hv => Checker.arrives_of_sites (n := 8) (by decide) hv⟩

end Ownership
