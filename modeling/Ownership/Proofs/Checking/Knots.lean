import Ownership.Proofs.Checking.Acyclic
import Ownership.Proofs.Checking.Errors

/-!
# Checking ends

An assignment may not store a borrow of the place that it goes to. The checker tests that for the
place as it is written, which is enough where the place is a part of a variable: there an assignment
makes no borrow lead back. Behind a borrow the place is one of others, and what is stored there may
well lead to it (`Checker.TiesNoKnot`).

* `checking_ends`: **in a program that uses no extension and ties no knot, no borrow leads back to
  itself**, so resolving, comparing and writing end, and the program has a type or an error.
* `checking_ends_knot`: a program that is accepted and ties a knot.
-/

namespace Ownership

open Relation

variable {c : Checker} {Γ Γ₁ : Env} {σ : String → Shape} {p q t : Place}
variable {T U ty : Ty} {f : Shape} {s : Slot} {m : Bool} {π ρ : List Selector} {a b : Site}
variable {l root : Lifetime} {sp : Span} {source program : Term} {e : CheckError}

/-! ### Assignments to parts of variables -/

/-- In a linear shape every place that can be read meets every part of the variable. -/
theorem Ty.Fits.meet_of_linear (h : ty.Fits σ f) (hl : f.Linear) (hp : ty.follow π = .reached U)
    (hr : ty.Readable ρ) : Place.pathsMeet ρ π = true := by
  induction ty, π, hp using Ty.reached_induction generalizing f ρ with
  | here => cases ρ <;> rfl
  | component =>
    cases h with
    | compound => exact hl.elim
  | box ty π hp ih =>
    cases h with
    | box h =>
      cases ρ with
      | nil => rfl
      | cons j ρ =>
        cases j with
        | deref =>
          have hmeet : Place.pathsMeet ρ π = true := ih h hl hr
          simpa [Place.pathsMeet] using hmeet
        | index j =>
          rcases hr with ⟨u, hf, -⟩ | ⟨m, ps, rest, hf⟩
          · cases hf
          · cases hf

/-- **An assignment to a part of a variable ties no knot.** Nothing that borrows from the variable
is stored there, and no other variable borrows from it. -/
theorem Env.unknotted_of_reached (hs : Γ.Shaped σ) (hl : ∀ x, (σ x).Linear)
    (hlent : LentAvailable σ Γ T) (hslot : Γ.get? p.name = some s)
    (hf : s.ty.follow p.path = .reached U) (hp : Γ.writeProhibited p = false)
    (hT : T.prohibitsWriting p = false) : Γ.Unknotted p T := by
  -- what is borrowed from the variable conflicts with the place
  have hmeet : ∀ {q : Place}, Γ.Readable q → q.name = p.name → q.conflicts p = true := by
    rintro q ⟨s', hs', hr⟩ hname
    rw [hname] at hs'
    cases hslot.symm.trans hs'
    have hpath : Place.pathsMeet q.path p.path = true :=
      (hs _ s hslot).meet_of_linear (hl _) hf hr
    simp [Place.conflicts, hname, hpath]
  -- no way leads on from the place
  have hends : ∀ x, Γ.Lands p x → x = p.name := by
    rintro x ⟨q, s', u, hw, rfl, -, -⟩
    rcases ReflTransGen.cases_head hw with rfl | ⟨r, ⟨s₁, m, ps, rest, t, hs₁, hf₁, -, -⟩, -⟩
    · rfl
    · cases hslot.symm.trans hs₁
      rw [hf] at hf₁
      cases hf₁
  intro m t x ht hback hx
  obtain rfl := hends x hx
  rcases ReflTransGen.cases_tail hback with hname | ⟨y, -, s', m', t', hs', ht', hname⟩
  · have hconflict := hmeet (hlent.2.2 m t ht) hname.symm
    rw [ht.not_conflicts hT] at hconflict
    cases hconflict
  · have hconflict := hmeet (hlent.2.1 y s' m' t' hs' ht') hname
    rw [ht'.not_conflicts (Env.slot_not_prohibitsWriting hp hs')] at hconflict
    cases hconflict

/-- What has a type is a part of its variable, or lies behind a borrow. -/
theorem reached_or_crossed (h : typeOf Γ p = .ok T) : ∃ s, Γ.get? p.name = some s ∧
    ((∃ u, s.ty.follow p.path = .reached u) ∨
      ∃ m ps rest, s.ty.follow p.path = .crossed m ps rest) := by
  rw [typeOf] at h
  generalize crossings _ _ p = n at h
  cases n with
  | zero => cases h
  | succ n =>
    obtain ⟨s, hs, hf | ⟨m, ps, rest, hf, -⟩⟩ := typeUpTo_ok h
    · exact ⟨s, hs, .inl ⟨T, hf⟩⟩
    · exact ⟨s, hs, .inr ⟨m, ps, rest, hf⟩⟩

/-! ### Programs -/

namespace Checker

/-- **No assignment behind a borrow ties a knot** on the way through the program. -/
def TiesNoKnot (c : Checker) (a : Site) : Prop :=
  ∀ Γ l sp p t Γ₁ T s m ps rest, c.Visits a ⟨Γ, l, .assign sp p t⟩ →
    (c.apply Γ l t).result = .ok (Γ₁, T) → Γ₁.get? p.name = some s →
    s.ty.follow p.path = .crossed m ps rest → Γ₁.Unknotted p T

theorem available_law (hc : c.extensions = []) (ho : c.Orderly root program) :
    Stable c (c.Visits ⟨.empty, root, program⟩) LentAvailable :=
  stable_available hc fun _ _ _ _ _ _ _ _ _ hv hs hsource ht =>
    apart_of_assign ho (.inl hc) hv hsource hs ht

/-- The ways from an assigned place end apart, and tie no knot. -/
theorem unknotted_of_assign (hc : c.extensions = []) (ho : c.Orderly root program)
    (hk : c.TiesNoKnot ⟨.empty, root, program⟩)
    (hv : c.Visits ⟨.empty, root, program⟩ ⟨Γ, l, .assign sp p source⟩)
    (hs : Γ.get? p.name = some s) (hsource : (c.apply Γ l source).result = .ok (Γ₁, T))
    (hp : Γ₁.writeProhibited p = false) (hT : T.prohibitsWriting p = false)
    (ht : typeOf Γ₁ p = .ok U) : Γ₁.Apart p ∧ Γ₁.Unknotted p T := by
  refine ⟨apart_of_assign ho (.inl hc) hv hsource hs ht, ?_⟩
  obtain ⟨s₁, hs₁, ⟨u, hf⟩ | ⟨m, ps, rest, hf⟩⟩ := reached_or_crossed ht
  · obtain ⟨σ, hlinear⟩ := (stable_linear hc).source (.empty ho .empty) hv hs hsource
    obtain ⟨σ', havailable⟩ := (available_law hc ho).source (.empty ho .empty) hv hs hsource
    exact Env.unknotted_of_reached hlinear.shaped hlinear.holds.1 havailable.holds hs₁ hf hp hT
  · exact hk Γ l sp p source Γ₁ T s₁ m ps rest hv hsource hs₁ hf

/-- **No borrow leads back to itself.** -/
theorem stable_acyclic {ok : Site → Prop} (hc : c.extensions = [])
    (hassign : ∀ Γ l sp p t s Γ₁ T U, ok ⟨Γ, l, .assign sp p t⟩ → Γ.get? p.name = some s →
      (c.apply Γ l t).result = .ok (Γ₁, T) → Γ₁.writeProhibited p = false →
      T.prohibitsWriting p = false → typeOf Γ₁ p = .ok U → Γ₁.Apart p ∧ Γ₁.Unknotted p T) :
    Stable c ok (fun _ Γ _ => Γ.Acyclic) where
  forget h := h
  int h := h
  box h := h
  read _ h hr := by
    refine h.mono fun x y hxy => ?_
    obtain ⟨s, m, t, hs, ht, rfl⟩ := hxy
    obtain ⟨s', hs', ht⟩ := (lends_of_read hr).1 x s m t hs ht
    exact ⟨s', m, t, hs', ht, rfl⟩
  borrow _ h _ _ := h
  bind _ h _ hΓ hT := h.bind hΓ hT
  assign _ h _ hok hs hsource ha := by
    obtain ⟨hp, hT, hw⟩ := assign_ok ha
    obtain ⟨s', hadm⟩ := admits_of_write hw
    obtain ⟨current, ht, -⟩ := hadm.compatible
    obtain ⟨hapart, hu⟩ := hassign _ _ _ _ _ _ _ _ _ hok hs hsource hp hT ht
    exact h.of_unknotted hu fun x y => Env.points_of_write hapart hw
  leave h _ := by
    refine h.mono fun x y hxy => ?_
    obtain ⟨s, m, t, hs, ht, rfl⟩ := hxy
    exact ⟨s, m, t, (Env.get?_dropLifetime.1 hs).1, ht, rfl⟩
  extended he := absurd hc he

theorem acyclic_law (hc : c.extensions = []) (ho : c.Orderly root program)
    (hk : c.TiesNoKnot ⟨.empty, root, program⟩) :
    Stable c (c.Visits ⟨.empty, root, program⟩) (fun _ Γ _ => Γ.Acyclic) :=
  stable_acyclic hc fun _ _ _ _ _ _ _ _ _ hv hs hsource hp hT ht =>
    unknotted_of_assign hc ho hk hv hs hsource hp hT ht

theorem acyclic_of_reaches (hc : c.extensions = []) (ho : c.Orderly root program)
    (hk : c.TiesNoKnot ⟨.empty, root, program⟩) (hr : c.Reaches ⟨.empty, root, program⟩ Γ) :
    Γ.Acyclic := by
  have law := acyclic_law hc ho hk
  obtain ⟨T, -, σ, hkept⟩ := law.reaches (.empty ho .empty) (fun _ hb => hb) hr
  exact hkept.holds

/-! ### Rules -/

theorem require_ends {write : Bool} {gone : Violation} (hg : gone ≠ .endless) :
    require Γ p write gone ≠ .error .endless := by
  rw [require]
  cases availability Γ p write with
  | moved => simpa using hg
  | _ => simp

theorem strike_ends : strike T p ≠ .error .endless := by
  rw [strike]
  cases T.follow p.path with
  | crossed m ps rest => cases hq : ps.first? <;> simp [hq]
  | _ => simp

theorem read_ends {kind : AccessKind} (h : Γ.Acyclic) : c.read Γ kind p ≠ .error .endless := by
  intro he
  simp only [read, Traced.bind_eq_error] at he
  rcases he with he | ⟨s, -, he | ⟨⟨⟩, -, he | ⟨T, -, he | ⟨copied, -, he⟩⟩⟩⟩
  · exact declared_ends he
  · exact require_ends Violation.noConfusion he
  · exact h.typeOf_ends p he
  · -- whether a place is copied depends on its type only
    cases kind with
    | copy =>
      simp only [copies] at he
      split at he <;> cases he
    | move => cases he
    | inferred => cases he
  · cases copied with
    | true =>
      simp only [if_true] at he
      split at he <;> cases he
    | false =>
      simp only [Bool.false_eq_true, if_false, Traced.bind_eq_error] at he
      rcases he with he | ⟨⟨⟩, -, he⟩
      · exact require_ends Violation.noConfusion he
      · split at he
        · cases he
        · rcases Traced.bind_eq_error.1 he with he | ⟨struck, -, he⟩
          · exact strike_ends he
          · cases he

theorem borrow_ends : borrow Γ m p ≠ .error .endless := by
  intro he
  simp only [borrow, Traced.bind_eq_error] at he
  rcases he with he | ⟨s, -, he | ⟨⟨⟩, -, he⟩⟩
  · exact declared_ends he
  · exact require_ends Violation.noConfusion he
  · cases m with
    | false =>
      simp only [Bool.false_eq_true, if_false] at he
      split at he <;> cases he
    | true =>
      simp only [if_true, Traced.bind_eq_error] at he
      rcases he with he | ⟨⟨⟩, -, he⟩
      · exact require_ends Violation.noConfusion he
      · split at he <;> cases he

theorem assign_ends (h : Γ.Acyclic) (hp : Γ.writeProhibited p = false →
    T.prohibitsWriting p = false → ∀ U, typeOf Γ p = .ok U → Γ.Apart p ∧ Γ.Unknotted p T) :
    c.assign Γ p T ≠ .error .endless := by
  intro he
  simp only [assign, Traced.bind_eq_error] at he
  rcases he with he | ⟨⟨⟩, -, he⟩
  · exact require_ends Violation.noConfusion he
  · split at he
    · cases he
    · rename_i hw
      simp only [Bool.or_eq_true, not_or, Bool.not_eq_true] at hw
      exact write_ends h (hp hw.1 hw.2) he

/-- **No rule gives up** where no borrow leads back to itself. -/
theorem Raises.ends {v : Violation} (hr : c.Raises a ⟨v, sp⟩) (hc : c.extensions = [])
    (h : a.env.Acyclic)
    (hassign : ∀ Γ l sp p t s Γ₁ T, a = ⟨Γ, l, .assign sp p t⟩ → Γ.get? p.name = some s →
      (c.apply Γ l t).result = .ok (Γ₁, T) → c.assign Γ₁ p T ≠ .error .endless) :
    v ≠ .endless := by
  rintro rfl
  cases hr with
  | undeclared hv => exact declared_ends hv
  | assign hs hsource hv => exact hassign _ _ _ _ _ _ _ _ rfl (declared_ok.1 hs) hsource hv
  | access hv => exact read_ends h hv
  | borrow hv => exact borrow_ends hv
  | comparable hform => exact extensions_of_form hform hc
  | merge hform => exact extensions_of_form hform hc

end Checker

/-- **Checking ends.** In a program that uses no extension and ties no knot, no place leads back to
itself, in any environment that is passed through. Every place has a type there or an error that
says why not, all types can be compared, every assignment is made or refused, and the program has a
type or an error: none of the bounds is met. -/
theorem checking_ends (hc : c.extensions = []) (ho : c.Orderly root program)
    (hk : c.TiesNoKnot ⟨.empty, root, program⟩) :
    (∀ Γ, c.Reaches ⟨.empty, root, program⟩ Γ →
      (∀ p, ¬ TransGen Γ.Follows p p) ∧ (∀ p, typeOf Γ p ≠ .error .endless) ∧
      ∀ Δ, c.Reaches ⟨.empty, root, program⟩ Δ →
        ∀ t u, compatible c.variance Γ t u Δ ≠ .error .endless) ∧
    (∀ Γ l sp p t s Γ₁ T, c.Visits ⟨.empty, root, program⟩ ⟨Γ, l, .assign sp p t⟩ →
      Γ.get? p.name = some s → (c.apply Γ l t).result = .ok (Γ₁, T) →
      c.assign Γ₁ p T ≠ .error .endless) ∧
    ∀ v sp, (c.checkProgram root program).result = .error ⟨v, sp⟩ → v ≠ .endless := by
  have law := Checker.acyclic_law hc ho hk
  have reached : ∀ Γ, c.Reaches ⟨.empty, root, program⟩ Γ → Γ.Acyclic :=
    fun Γ => Checker.acyclic_of_reaches hc ho hk
  have assigned : ∀ Γ l sp p t s Γ₁ T, c.Visits ⟨.empty, root, program⟩ ⟨Γ, l, .assign sp p t⟩ →
      Γ.get? p.name = some s → (c.apply Γ l t).result = .ok (Γ₁, T) →
      c.assign Γ₁ p T ≠ .error .endless := by
    intro Γ l sp p t s Γ₁ T hv hs hsource
    obtain ⟨σ, hkept⟩ := law.source (.empty ho .empty) hv hs hsource
    exact Checker.assign_ends hkept.holds fun hp hT U ht =>
      Checker.unknotted_of_assign hc ho hk hv hs hsource hp hT ht
  refine ⟨fun Γ hΓ => ?_, assigned, fun v sp he => ?_⟩
  · have hacyclic := reached Γ hΓ
    exact ⟨hacyclic.not_follows, hacyclic.typeOf_ends, fun Δ hΔ t u =>
      compatible_ends hacyclic (reached Δ hΔ) t u⟩
  · have hrefused : c.Refused ⟨.empty, root, program⟩ ⟨v, sp⟩ := by
      simp only [Checker.checkProgram, Traced.result_bind, Traced.bind_eq_error] at he
      rcases he with he | ⟨x, -, he⟩
      · exact he
      · cases he
    obtain ⟨b, hv, hr⟩ := Checker.raised hrefused
    refine hr.ends hc (reached b.env ⟨b, hv, .inl rfl⟩) fun Γ l sp p t s Γ₁ T e hs hsource => ?_
    subst e
    exact assigned Γ l sp p t s Γ₁ T hv hs hsource

/-! ### A test for knots -/

/-- What can be reached from `as` by `next`, if no more than `n` steps are needed to see it all. -/
def explore {α : Type} (next : α → List α) : Nat → List α → Option (List α)
  | _, [] => some []
  | 0, _ :: _ => none
  | n + 1, a :: as => (explore next n (next a ++ as)).map (a :: ·)

/-- **What is explored is what can be reached.** -/
theorem mem_explore {α : Type} {next : α → List α} {R : α → α → Prop} {n : Nat} {as bs : List α}
    {b : α} (hR : ∀ a b, b ∈ next a ↔ R a b) (h : explore next n as = some bs) :
    b ∈ bs ↔ ∃ a ∈ as, ReflTransGen R a b := by
  induction n generalizing as bs with
  | zero =>
    cases as with
    | nil =>
      cases h
      simp
    | cons a as => cases h
  | succ n ih =>
    cases as with
    | nil =>
      cases h
      simp
    | cons a as =>
      obtain ⟨cs, hcs, rfl⟩ := Option.map_eq_some_iff.1 h
      rw [List.mem_cons, ih hcs]
      constructor
      · rintro (rfl | ⟨d, hd, hdb⟩)
        · exact ⟨b, List.mem_cons_self, .refl⟩
        · rcases List.mem_append.1 hd with hd | hd
          · exact ⟨a, List.mem_cons_self, .head ((hR a d).1 hd) hdb⟩
          · exact ⟨d, List.mem_cons_of_mem _ hd, hdb⟩
      · rintro ⟨d, hd, hdb⟩
        rcases List.mem_cons.1 hd with rfl | hd
        · rcases ReflTransGen.cases_head hdb with rfl | ⟨e, hde, heb⟩
          · exact .inl rfl
          · exact .inr ⟨e, List.mem_append_left _ ((hR d e).2 hde), heb⟩
        · exact .inr ⟨d, List.mem_append_right _ hd, hdb⟩

namespace Env

/-- Where the place leads on to. -/
def onward (Γ : Env) (p : Place) : List Place :=
  match Γ.get? p.name with
  | none => []
  | some s =>
    match s.ty.follow p.path with
    | .crossed _ ps rest => ps.toList.map (·.extend rest)
    | _ => []

theorem mem_onward : q ∈ Γ.onward p ↔ Γ.Follows p q := by
  constructor
  · intro h
    rw [onward] at h
    split at h
    · cases h
    · rename_i s hs
      split at h
      · rename_i m ps rest hf
        obtain ⟨t, ht, rfl⟩ := List.mem_map.1 h
        exact ⟨s, m, ps, rest, t, hs, hf, ht, rfl⟩
      · cases h
  · rintro ⟨s, m, ps, rest, t, hs, hf, ht, rfl⟩
    simp only [onward, hs, hf]
    exact List.mem_map_of_mem ht

/-- The variables that a variable points to. -/
def pointees (Γ : Env) (x : String) : List String :=
  ((Γ.get? x).elim [] fun s => s.ty.borrowed).map Place.name

theorem mem_pointees {x y : String} : y ∈ Γ.pointees x ↔ Γ.Points x y := by
  constructor
  · intro h
    obtain ⟨t, ht, rfl⟩ := List.mem_map.1 h
    cases hs : Γ.get? x with
    | none =>
      rw [hs] at ht
      cases ht
    | some s =>
      rw [hs] at ht
      obtain ⟨m, ht⟩ := Ty.mem_borrowed.1 ht
      exact ⟨s, m, t, hs, ht, rfl⟩
  · rintro ⟨s, m, t, hs, ht, rfl⟩
    simp only [pointees, hs, Option.elim_some]
    exact List.mem_map_of_mem ht.borrowed

/-- Tests that what `T` borrows leads to no variable on a way from `p`. -/
def separates (Γ : Env) (n : Nat) (p : Place) (T : Ty) : Bool :=
  match explore Γ.onward n [p], explore Γ.pointees n (T.borrowed.map Place.name) with
  | some ways, some names => ways.all fun q => !names.contains q.name
  | _, _ => false

theorem unknotted_of_separates {n : Nat} (h : Γ.separates n p T = true) : Γ.Unknotted p T := by
  rintro m t x ht hx ⟨q, s, u, hq, rfl, -, -⟩
  rw [separates] at h
  split at h
  · rename_i ways names hways hnames
    have hway : q ∈ ways :=
      (mem_explore (fun _ _ => mem_onward) hways).2 ⟨p, List.mem_cons_self, hq⟩
    have hname : q.name ∈ names := (mem_explore (fun _ _ => mem_pointees) hnames).2
      ⟨t.name, List.mem_map_of_mem ht.borrowed, hx⟩
    have htest := List.all_eq_true.1 h q hway
    simp [hname] at htest
  · cases h

end Env

/-- A program ties no knot if all its assignments pass the test. -/
theorem Checker.tiesNoKnot_of_sites {n : Nat} (h : (c.sites a.env a.lifetime a.term).all (fun b =>
      match b.term with
      | .assign _ p t => match (c.apply b.env b.lifetime t).result with
        | .ok (Γ₁, T) => Γ₁.separates n p T
        | .error _ => true
      | _ => true) = true) : c.TiesNoKnot a := by
  intro Γ l sp p t Γ₁ T s m ps rest hv hsource _ _
  have htest := List.all_eq_true.1 h _ (mem_sites hv)
  simp only [hsource] at htest
  exact Env.unknotted_of_separates htest

/-- `{ let mut a = 1; let mut b = 2; let mut c = 3; let mut d = 4; let mut x = &mut a;
let mut y = &mut b; let mut z = &mut c; let mut u = &mut x; let mut w = &mut y;
{ let mut v = &mut u; { let mut r = &mut v; *r = &mut w; } *v = &mut z; } *u = &mut p; }`:
in the end `u` leads to `x` and `z`, and `w` leads to `y` and `z`. -/
def weave (p : Place) : Term :=
  .block {} (.inside 1 (.root 0)) [.letMut {} "a" {} (.value {} (.int 1)),
    .letMut {} "b" {} (.value {} (.int 2)), .letMut {} "c" {} (.value {} (.int 3)),
    .letMut {} "d" {} (.value {} (.int 4)), .letMut {} "x" {} (.borrow {} true (.var "a")),
    .letMut {} "y" {} (.borrow {} true (.var "b")), .letMut {} "z" {} (.borrow {} true (.var "c")),
    .letMut {} "u" {} (.borrow {} true (.var "x")), .letMut {} "w" {} (.borrow {} true (.var "y")),
    .block {} (.inside 2 (.inside 1 (.root 0))) [.letMut {} "v" {} (.borrow {} true (.var "u")),
      .block {} (.inside 3 (.inside 2 (.inside 1 (.root 0))))
        [.letMut {} "r" {} (.borrow {} true (.var "v")),
          .assign {} (Place.var "r").deref (.borrow {} true (.var "w"))],
      .assign {} (Place.var "v").deref (.borrow {} true (.var "z"))],
    .assign {} (Place.var "u").deref (.borrow {} true p)]

/-- The variables of `weave` before the last assignment. -/
def beforeWoven : Env := .declaring (.inside 1 (.root 0))
  [("a", .int), ("b", .int), ("c", .int), ("d", .int), ("x", .borrowOf true (.var "a")),
    ("y", .borrowOf true (.var "b")), ("z", .borrowOf true (.var "c")),
    ("u", .borrow true (.ofList [.var "x", .var "z"])),
    ("w", .borrow true (.ofList [.var "y", .var "z"]))]

/-- The variables of `weave` after the last assignment, of a unique borrow of `p`. -/
def woven (p : Place) : Env := .declaring (.inside 1 (.root 0))
  [("a", .int), ("b", .int), ("c", .int), ("d", .int),
    ("x", .borrow true (.ofList [.var "a", p])), ("y", .borrowOf true (.var "b")),
    ("z", .borrow true (.ofList [.var "c", p])), ("u", .borrow true (.ofList [.var "x", .var "z"])),
    ("w", .borrow true (.ofList [.var "y", .var "z"]))]

theorem orderly_weave (p : Place) : Checker.Orderly {} (.root 0) (weave p) :=
  ⟨by simp [weave, Term.Nested, Term.AllNested, Lifetime.parent?], fun h => absurd rfl h⟩

/-- The last statement of `weave` is typed after the others. -/
theorem reaches_woven (h : (Checker.apply {} beforeWoven (.inside 1 (.root 0))
      (.assign {} (Place.var "u").deref (.borrow {} true p))).result = .ok (woven p, .unit)) :
    Checker.Reaches {} ⟨.empty, .root 0, weave p⟩ (woven p) :=
  ⟨_, .single (.statementAt 10 rfl rfl), .inr ⟨.unit, h⟩⟩

theorem checking_ends_weave :
    Checker.Orderly {} (.root 0) (weave (.var "d")) ∧
    Checker.TiesNoKnot {} ⟨.empty, .root 0, weave (.var "d")⟩ ∧
    Checker.Reaches {} ⟨.empty, .root 0, weave (.var "d")⟩ (woven (.var "d")) ∧
    (∀ p, ¬ TransGen (woven (.var "d")).Follows p p) ∧
    ∀ p, typeOf (woven (.var "d")) p ≠ .error .endless := by
  have ho := orderly_weave (.var "d")
  have hk : Checker.TiesNoKnot {} ⟨.empty, .root 0, weave (.var "d")⟩ :=
    Checker.tiesNoKnot_of_sites (n := 16) (by decide)
  have hr : Checker.Reaches {} ⟨.empty, .root 0, weave (.var "d")⟩ (woven (.var "d")) :=
    reaches_woven rfl
  obtain ⟨hways, htypes, -⟩ := (checking_ends rfl ho hk).1 _ hr
  exact ⟨ho, hk, hr, hways, htypes⟩

/-! ### A knot -/

/-- What is stored in `z` by the last assignment of `weave knot`, although `w` leads to `z`. -/
def knot : Place := (Place.var "w").deref.deref

theorem unionOver_pair_endless {f : Place → Except Violation Ty}
    (hp : f p = .error .endless ∨ f p = .ok T) (hq : f q = .error .endless) :
    unionOver f none [p, q] = .error .endless := by
  rcases hp with hp | hp <;> simp [unionOver, hp, hq]

/-- Neither the knot nor `*z` has a type, however many borrows are followed: the one leads to the
other. -/
theorem endless_woven (n : Nat) : typeUpTo (woven knot) n knot = .error .endless ∧
    typeUpTo (woven knot) n (Place.var "z").deref = .error .endless := by
  generalize hΓ : woven knot = Γ
  induction n with
  | zero => exact ⟨rfl, rfl⟩
  | succ n ih =>
    -- the other targets have a type once the bound lets them
    have hy : typeUpTo Γ n (Place.var "y").deref = .error .endless ∨
        typeUpTo Γ n (Place.var "y").deref = .ok .int := by
      subst hΓ
      match n with
      | 0 => exact .inl rfl
      | 1 => exact .inl rfl
      | n + 2 => exact .inr rfl
    have hc : typeUpTo Γ n (.var "c") = .error .endless ∨ typeUpTo Γ n (.var "c") = .ok .int := by
      subst hΓ
      match n with
      | 0 => exact .inl rfl
      | n + 1 => exact .inr rfl
    have hw : typeUpTo Γ (n + 1) knot =
        unionOver (typeUpTo Γ n) none [(Place.var "y").deref, (Place.var "z").deref] := by
      subst hΓ
      rfl
    have hz : typeUpTo Γ (n + 1) (Place.var "z").deref =
        unionOver (typeUpTo Γ n) none [.var "c", knot] := by
      subst hΓ
      rfl
    rw [hw, hz]
    exact ⟨unionOver_pair_endless hy ih.2, unionOver_pair_endless hc ih.1⟩

/-- **A knot can be tied.** The program is accepted, and in the end the knot leads back to itself:
it has no type, whatever the bound. -/
theorem checking_ends_knot :
    (Checker.checkProgram {} (.root 0) (weave knot)).result = .ok .unit ∧
    Checker.Orderly {} (.root 0) (weave knot) ∧
    Checker.Reaches {} ⟨.empty, .root 0, weave knot⟩ (woven knot) ∧
    TransGen (woven knot).Follows knot knot ∧
    ∀ n, typeUpTo (woven knot) n knot = .error .endless := by
  have hw : (woven knot).get? "w" =
      some ⟨.borrow true (.ofList [.var "y", .var "z"]), .inside 1 (.root 0)⟩ := by decide
  have hz : (woven knot).get? "z" =
      some ⟨.borrow true (.ofList [.var "c", knot]), .inside 1 (.root 0)⟩ := by decide
  have there : (woven knot).Follows knot (Place.var "z").deref :=
    ⟨_, true, _, [.deref], .var "z", hw, rfl, by decide, rfl⟩
  have back : (woven knot).Follows (Place.var "z").deref knot :=
    ⟨_, true, _, [], knot, hz, rfl, by decide, rfl⟩
  exact ⟨rfl, orderly_weave knot, reaches_woven rfl, .tail (.single there) back,
    fun n => (endless_woven n).1⟩

end Ownership
