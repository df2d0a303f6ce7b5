import Ownership.Proofs.Checking.Apart

/-!
# What a write leaves behind

A write behind a unique borrow is one to all of its targets. Afterwards all of them lend what has
been written, and keep it from being written to, as long as no way from the place ends in a variable
that a way passes. The slot of such a variable is put back as it was before.

* `recorded_of_assign`: **an assignment behind a borrow is recorded wherever it may have gone**, in
  every program without components, and in any other where the ways from the place end apart.
* `recorded_of_assign_lost`: a write that comes back to the variable that it goes through is lost.
-/

namespace Ownership

open Relation

variable {c : Checker} {variance : Variance} {Γ Γ₁ Γ' : Env} {p t : Place} {T U : Ty} {s : Slot}
variable {m strong : Bool} {ps : PlaceSet} {rest : List Selector} {l root : Lifetime}
variable {source program : Term} {sp : Span}

/-- **A write behind a borrow is found at every target.** -/
theorem everywhere_of_write (ha : Γ.Apart p) (hs : Γ.get? p.name = some s)
    (hf : s.ty.follow p.path = .crossed m ps rest) (h : write variance Γ p T strong = .ok Γ')
    (ht : t ∈ ps) :
    Γ'.Everywhere T.defined (fun u => ∀ m q, T.Lends m q → u.Lends m q) (t.extend rest) := by
  rw [write, writeUpTo_crossed hs hf] at h
  have hgrow : Env.Grows T (Γ.Lands p) Γ Γ' := .of_write ha (.refl Γ) .refl h
  -- the variable that is passed has the type that it had
  have hp : ¬ Γ.Lands p p.name := ha p.name ⟨p, s, m, ps, rest, .refl, rfl, hs, hf⟩
  obtain ⟨s', hs', ho, -⟩ := hgrow.some _ s hs
  cases ho hp
  refine (Env.Grows.everywhere ha (.refl Γ) ?_ (fun _ _ => id) .refl h).targets hs' hf ht
  exact fun u u' hu hT m q hq => hu.lends (hT m q hq)

/-- **An assignment behind a borrow is recorded wherever it may have gone**: every target lends what
has been assigned, and may not be written where this may not. Nothing is found only in what has been
moved out, which is nowhere if what is assigned is whole. -/
theorem recorded_of_assign (h : (c.apply Γ l (.assign sp p source)).result = .ok (Γ', U))
    (hsource : (c.apply Γ l source).result = .ok (Γ₁, T)) (hs : Γ₁.get? p.name = some s)
    (hf : s.ty.follow p.path = .crossed true ps rest)
    (ha : Γ₁.Apart p ∨ c.Orderly root program ∧ c.Componentless ⟨.empty, root, program⟩ ∧
      c.Visits ⟨.empty, root, program⟩ ⟨Γ, l, .assign sp p source⟩) (ht : t ∈ ps) :
    Γ'.Everywhere T.defined (fun u => (∀ m q, T.Lends m q → u.Lends m q) ∧
      ∀ r, T.prohibitsWriting r = true → u.prohibitsWriting r = true) (t.extend rest) := by
  obtain ⟨s₀, Γ₂, T₂, hs₀, hsource₂, hassign, -⟩ := Checker.apply_assign h
  cases hsource.symm.trans hsource₂
  obtain ⟨-, -, hw⟩ := Checker.assign_ok hassign
  have hapart : Γ₁.Apart p := by
    rcases ha with ha | ⟨ho, hfree, hv⟩
    · exact ha
    · obtain ⟨s₁, hadm⟩ := admits_of_write hw
      obtain ⟨current, htype, -⟩ := hadm.compatible
      exact Checker.apart_of_assign ho hfree hv hsource hs₀ htype
  have hlent := everywhere_of_write hapart hs hf hw ht
  refine hlent.mono fun u hu => ⟨hu, fun r hr => ?_⟩
  obtain ⟨m, q, hq, hconflict⟩ := Ty.prohibitsWriting_iff.1 hr
  exact Ty.prohibitsWriting_iff.2 ⟨m, q, hu m q hq, hconflict⟩

/-- `{ let mut a = 1; let mut b = 2; let mut c = 3; let mut x = &mut a; let mut y = &mut b;
let mut u = &mut x; { let mut v = &mut u; *v = &mut y; } *u = &mut c; }`: the last write goes to `x`
or to `y`. -/
def writeToEither : Term :=
  .block {} (.inside 1 (.root 0)) [.letMut {} "a" {} (.value {} (.int 1)),
    .letMut {} "b" {} (.value {} (.int 2)), .letMut {} "c" {} (.value {} (.int 3)),
    .letMut {} "x" {} (.borrow {} true (.var "a")), .letMut {} "y" {} (.borrow {} true (.var "b")),
    .letMut {} "u" {} (.borrow {} true (.var "x")),
    .block {} (.inside 2 (.inside 1 (.root 0))) [.letMut {} "v" {} (.borrow {} true (.var "u")),
      .assign {} (Place.var "v").deref (.borrow {} true (.var "y"))],
    .assign {} (Place.var "u").deref (.borrow {} true (.var "c"))]

/-- The variables of `writeToEither` before the last write. -/
def beforeEither : Env := .declaring (.inside 1 (.root 0))
  [("a", .int), ("b", .int), ("c", .int), ("x", .borrowOf true (.var "a")),
    ("y", .borrowOf true (.var "b")), ("u", .borrow true (.ofList [.var "x", .var "y"]))]

/-- The variables of `writeToEither` after the last write. -/
def afterEither : Env := .declaring (.inside 1 (.root 0))
  [("a", .int), ("b", .int), ("c", .int), ("x", .borrow true (.ofList [.var "a", .var "c"])),
    ("y", .borrow true (.ofList [.var "b", .var "c"])),
    ("u", .borrow true (.ofList [.var "x", .var "y"]))]

theorem recorded_of_assign_either :
    (Checker.apply {} beforeEither (.inside 1 (.root 0))
      (.assign {} (Place.var "u").deref (.borrow {} true (.var "c")))).result =
        .ok (afterEither, .unit) ∧
    Checker.Orderly {} (.root 0) writeToEither ∧
    Checker.Visits {} ⟨.empty, .root 0, writeToEither⟩ ⟨beforeEither, .inside 1 (.root 0),
      .assign {} (Place.var "u").deref (.borrow {} true (.var "c"))⟩ ∧
    ∀ t ∈ PlaceSet.ofList [.var "x", .var "y"], afterEither.Everywhere true
      (fun u => (∀ m q, (Ty.borrowOf true (.var "c")).Lends m q → u.Lends m q) ∧
        ∀ r, (Ty.borrowOf true (.var "c")).prohibitsWriting r = true →
          u.prohibitsWriting r = true) (t.extend []) := by
  have hassign : (Checker.apply {} beforeEither (.inside 1 (.root 0))
      (.assign {} (Place.var "u").deref (.borrow {} true (.var "c")))).result =
        .ok (afterEither, .unit) := rfl
  have hsource : (Checker.apply {} beforeEither (.inside 1 (.root 0))
      (.borrow {} true (.var "c"))).result = .ok (beforeEither, .borrowOf true (.var "c")) := rfl
  have ho : Checker.Orderly {} (.root 0) writeToEither :=
    ⟨by simp [writeToEither, Term.Nested, Term.AllNested, Lifetime.parent?], fun h => absurd rfl h⟩
  have hv : Checker.Visits {} ⟨.empty, .root 0, writeToEither⟩ ⟨beforeEither, .inside 1 (.root 0),
      .assign {} (Place.var "u").deref (.borrow {} true (.var "c"))⟩ :=
    .single (.statementAt 7 rfl rfl)
  have hu : beforeEither.get? "u" =
      some ⟨.borrow true (.ofList [.var "x", .var "y"]), .inside 1 (.root 0)⟩ := by decide
  exact ⟨hassign, ho, hv, fun t ht =>
    recorded_of_assign hassign hsource hu rfl (.inr ⟨ho, .inl rfl, hv⟩) ht⟩

/-! ### Writes that come back -/

/-- `{ let mut a = 0; let mut b = box 1; let mut c = 2; let mut j = &mut c; let mut x = (&mut j,
&mut a); x.0 = &mut x.1; *x.0 = &mut *b; }`: the last write goes through `x.0` to `x.1`. -/
def writeBack : Term :=
  .block {} (.inside 1 (.root 0)) [.letMut {} "a" {} (.value {} (.int 0)),
    .letMut {} "b" {} (.box {} (.value {} (.int 1))), .letMut {} "c" {} (.value {} (.int 2)),
    .letMut {} "j" {} (.borrow {} true (.var "c")),
    .letMut {} "x" {} (.ext {} 30 [.borrow {} true (.var "j"), .borrow {} true (.var "a")]),
    .assign {} ((Place.var "x").index 0) (.borrow {} true ((Place.var "x").index 1)),
    .assign {} ((Place.var "x").index 0).deref (.borrow {} true (Place.var "b").deref)]

/-- The variables of `writeBack` before the last write, and also after it. -/
def beforeBack : Env := .declaring (.inside 1 (.root 0))
  [("a", .int), ("b", .box .int), ("c", .int), ("j", .borrowOf true (.var "c")),
    ("x", .compound [.borrowOf true ((Place.var "x").index 1), .borrowOf true (.var "a")])]

/-- **A write that comes back to the variable that it goes through is lost.** The program is
accepted, `x.1` is a target of the borrow that the last write goes through, and afterwards it does
not keep `*b` from being written. -/
theorem recorded_of_assign_lost :
    Checker.Orderly { extensions := Extension.all } (.root 0) writeBack ∧
    Checker.Visits { extensions := Extension.all } ⟨.empty, .root 0, writeBack⟩
      ⟨beforeBack, .inside 1 (.root 0), .assign {} ((Place.var "x").index 0).deref
        (.borrow {} true (Place.var "b").deref)⟩ ∧
    (Checker.apply { extensions := Extension.all } beforeBack (.inside 1 (.root 0))
      (.assign {} ((Place.var "x").index 0).deref (.borrow {} true (Place.var "b").deref))).result =
        .ok (beforeBack, .unit) ∧
    (Checker.apply { extensions := Extension.all } beforeBack (.inside 1 (.root 0))
      (.borrow {} true (Place.var "b").deref)).result =
        .ok (beforeBack, .borrowOf true (Place.var "b").deref) ∧
    ∃ s ps, beforeBack.get? "x" = some s ∧ s.ty.follow [.index 0, .deref] = .crossed true ps [] ∧
      (Place.var "x").index 1 ∈ ps ∧ s.ty.follow [.index 1] = .reached (.borrowOf true (.var "a")) ∧
      (Ty.borrowOf true (Place.var "b").deref).prohibitsWriting (Place.var "b").deref = true ∧
      (Ty.borrowOf true (.var "a")).prohibitsWriting (Place.var "b").deref = false := by
  refine ⟨⟨?_, fun _ x hx => Env.ne_temporary ?_⟩, .single (.statementAt 6 rfl rfl), rfl, rfl,
    ⟨.compound [.borrowOf true ((Place.var "x").index 1), .borrowOf true (.var "a")],
      .inside 1 (.root 0)⟩, .singleton ((Place.var "x").index 1), ?_, rfl,
    PlaceSet.mem_singleton.2 rfl, rfl, by decide, by decide⟩
  · simp [writeBack, Term.Nested, Term.AllNested, Lifetime.parent?]
  · revert x
    decide
  · decide

end Ownership
