import Ownership.Proofs.Checking.Bindings

/-!
# Where variables are declared

Whether a variable is bound is asked before its initialiser is typed, and its slot is added to what
the initialiser leaves behind. In between the name can only be bound by the initialiser itself,
outside of the blocks in it, and then it is. So a declaration adds a variable just if its
initialiser does not declare the same one.

* `Checker.Visits.accepted`: the parts of a term that is accepted are accepted.
* `Checker.declared_new`: **at every declaration in an accepted term the name is new, or the
  initialiser declares it.**
* `Checker.declared_new_hides`: an accepted term in which a declaration takes the place of a
  variable that is borrowed.
-/

namespace Ownership

open Relation

namespace Checker

variable {c : Checker} {Γ Γ₁ : Env} {l : Lifetime} {T T₁ : Ty} {t : Term} {ts us : List Term}
variable {P P' Q : Parked} {a b : Site} {sp xs : Span} {x : String}

/-! ### Parts of accepted terms -/

/-- The term is accepted. -/
def Accepts (c : Checker) (a : Site) : Prop :=
  ∃ judged, (c.apply a.env a.lifetime a.term).result = .ok judged

/-- The statement after those that leave `Γ₁` is accepted there. -/
theorem accepts_of_sequence {judged : Env × Ty}
    (h : (c.sequence Γ l T (ts ++ t :: us)).result = .ok judged)
    (hs : (c.sequence Γ l T ts).result = .ok (Γ₁, T₁)) : c.Accepts ⟨Γ₁, l, t⟩ := by
  induction ts generalizing Γ T with
  | nil =>
    obtain ⟨rfl, rfl⟩ := sequence_nil hs
    obtain ⟨Γ₂, T₂, h₂, -⟩ := sequence_cons h
    exact ⟨_, h₂⟩
  | cons u ts ih =>
    obtain ⟨Γ₂, T₂, h₂, hs⟩ := sequence_cons hs
    rw [List.cons_append, sequence_of_cons h₂] at h
    exact ih h hs

/-- The operand after those that are parked in `P'` is accepted there. -/
theorem accepts_of_park (h : (c.park l P (ts ++ t :: us)).result = .ok Q)
    (hs : (c.park l P ts).result = .ok P') : c.Accepts ⟨P'.env, l, t⟩ := by
  induction ts generalizing P with
  | nil =>
    cases park_nil hs
    obtain ⟨judged, h₁, -⟩ := park_cons h
    exact ⟨judged, h₁⟩
  | cons u ts ih =>
    obtain ⟨judged, h₁, hs⟩ := park_cons hs
    rw [List.cons_append, park_of_cons h₁] at h
    exact ih h hs

theorem accepts_of_mem_sequence {judged : Env × Ty}
    (h : (c.sequence Γ l T ts).result = .ok judged) (ht : t ∈ ts) :
    ∃ Γ₁, c.Accepts ⟨Γ₁, l, t⟩ := by
  induction ts generalizing Γ T with
  | nil => cases ht
  | cons u ts ih =>
    obtain ⟨Γ₂, T₂, h₂, h⟩ := sequence_cons h
    rcases List.mem_cons.1 ht with rfl | ht
    · exact ⟨Γ, _, h₂⟩
    · exact ih h ht

theorem accepts_of_mem_park (h : (c.park l P ts).result = .ok Q) (ht : t ∈ ts) :
    ∃ Γ₁, c.Accepts ⟨Γ₁, l, t⟩ := by
  induction ts generalizing P with
  | nil => cases ht
  | cons u ts ih =>
    obtain ⟨judged, h₁, h⟩ := park_cons h
    rcases List.mem_cons.1 ht with rfl | ht
    · exact ⟨P.env, judged, h₁⟩
    · exact ih h ht

/-- **The parts of an accepted term are accepted** where they are typed. -/
theorem Calls.accepted (h : c.Calls a b) (ha : c.Accepts a) : c.Accepts b := by
  obtain ⟨⟨Γ', T⟩, ha⟩ := ha
  cases h with
  | init =>
    obtain ⟨-, Γ₁, U, h₁, -⟩ := apply_letMut ha
    exact ⟨_, h₁⟩
  | source =>
    obtain ⟨-, Γ₁, U, -, h₁, -⟩ := apply_assign ha
    exact ⟨_, h₁⟩
  | content =>
    obtain ⟨U, h₁, -⟩ := apply_box ha
    exact ⟨_, h₁⟩
  | statement hs =>
    obtain ⟨Γ₁, h₁, -⟩ := apply_block ha
    exact accepts_of_sequence h₁ hs
  | operand hform hs =>
    obtain ⟨P, hP, -⟩ := apply_tuple hform ha
    exact accepts_of_park hP hs
  | left hform =>
    obtain ⟨left, -, -, -, -, -, hl, -⟩ := apply_conditional hform ha
    exact ⟨left, hl⟩
  | right hform hx =>
    obtain ⟨left, right, -, -, -, -, hl, hr, -⟩ := apply_conditional hform ha
    cases hx.symm.trans hl
    exact ⟨right, hr⟩
  | onTrue hform hx hy hrel =>
    obtain ⟨left, right, Γ₁, us, tt, -, hl, hr, hrel', -, ht, -⟩ := apply_conditional hform ha
    cases hx.symm.trans hl
    cases hy.symm.trans hr
    cases hrel.trans hrel'.symm
    exact ⟨tt, ht⟩
  | onFalse hform hx hy hrel =>
    obtain ⟨left, right, Γ₁, us, -, ff, hl, hr, hrel', -, -, hf, -⟩ := apply_conditional hform ha
    cases hx.symm.trans hl
    cases hy.symm.trans hr
    cases hrel.trans hrel'.symm
    exact ⟨ff, hf⟩

/-- All that is visited in an accepted term is accepted. -/
theorem Visits.accepted (h : c.Visits a b) (ha : c.Accepts a) : c.Accepts b := by
  induction h with
  | refl => exact ha
  | tail _ hstep ih => exact hstep.accepted ih

/-! ### Declarations -/

/-- **Which declarations add a variable.** At every declaration in an accepted term the initialiser
is typed first, and the slot is added to what it leaves behind. The name is not bound there unless
the initialiser declares it outside of its blocks. If it does, in blocks of their own lifetimes,
the name is bound there, and the declaration takes the place of a live variable. -/
theorem declared_new (ha : c.Accepts a) (hv : c.Visits a ⟨Γ, l, .letMut sp x xs t⟩) :
    ∃ Γ₁ T, (c.apply Γ l t).result = .ok (Γ₁, T) ∧
      (c.apply Γ l (.letMut sp x xs t)).result = .ok (Γ₁.insert x ⟨T, l⟩, .unit) ∧
      (x ∉ t.declares → Γ₁.get? x = none) ∧
      (x ∈ t.declares → l ∉ t.lifetimes → l.global ∉ t.lifetimes →
        ∃ s, Γ₁.get? x = some s ∧ s.lifetime = l) := by
  obtain ⟨⟨Γ', U⟩, h⟩ := hv.accepted ha
  obtain ⟨hx, Γ₁, T, h₁, rfl, rfl⟩ := apply_letMut h
  have hcont := continues_apply t h₁
  refine ⟨Γ₁, T, h₁, h, fun hn => ?_, fun hm hl hg => hcont.bound hl hg x hm⟩
  cases hx₁ : Γ₁.get? x with
  | none => rfl
  | some s' =>
    rcases hcont.origin x s' hx₁ with ⟨s, hs, -⟩ | ⟨hm, -⟩
    · rw [NameMap.contains_eq_false_iff.1 hx] at hs
      cases hs
    · exact absurd hm hn

/-- `(let mut y = 1, { let mut x = 2; move x })` -/
def innerBlock : Term :=
  .ext {} 30 [.letMut {} "y" {} (.value {} (.int 1)),
    .block {} (.inside 2 (.inside 1 (.root 0))) [.letMut {} "x" {} (.value {} (.int 2)),
      .access {} .move (.var "x")]]

/-- `{ let mut x = (let mut y = 1, { let mut x = 2; move x }); }` -/
def letOverBlock : Term :=
  .block {} (.inside 1 (.root 0)) [.letMut {} "x" {} innerBlock]

/-- The block in the initialiser of `x` declares an `x` of its own, and forgets it. -/
theorem declared_new_inside :
    Checker.Accepts { extensions := Extension.all } ⟨.empty, .root 0, letOverBlock⟩ ∧
    Checker.Visits { extensions := Extension.all } ⟨.empty, .root 0, letOverBlock⟩
      ⟨.empty, .inside 1 (.root 0), .letMut {} "x" {} innerBlock⟩ ∧
    ∃ Γ₁ T, (Checker.apply { extensions := Extension.all } .empty (.inside 1 (.root 0))
        innerBlock).result = .ok (Γ₁, T) ∧
      (Checker.apply { extensions := Extension.all } .empty (.inside 1 (.root 0))
        (.letMut {} "x" {} innerBlock)).result =
          .ok (Γ₁.insert "x" ⟨T, .inside 1 (.root 0)⟩, .unit) ∧
      ("x" ∉ innerBlock.declares → Γ₁.get? "x" = none) ∧
      ("x" ∈ innerBlock.declares → Lifetime.inside 1 (.root 0) ∉ innerBlock.lifetimes →
        (Lifetime.inside 1 (.root 0)).global ∉ innerBlock.lifetimes →
        ∃ s, Γ₁.get? "x" = some s ∧ s.lifetime = .inside 1 (.root 0)) := by
  have ha : Checker.Accepts { extensions := Extension.all } ⟨.empty, .root 0, letOverBlock⟩ :=
    ⟨(.empty, .unit), rfl⟩
  have hv : Checker.Visits { extensions := Extension.all } ⟨.empty, .root 0, letOverBlock⟩
      ⟨.empty, .inside 1 (.root 0), .letMut {} "x" {} innerBlock⟩ :=
    .single (.statementAt 0 rfl rfl)
  exact ⟨ha, hv, declared_new ha hv⟩

/-! ### Variables that are hidden -/

/-- `(let mut x = &mut a, let mut y = &mut *x)` -/
def borrowsOn : Term :=
  .ext {} 30 [.letMut {} "x" {} (.borrow {} true (.var "a")),
    .letMut {} "y" {} (.borrow {} true (Place.var "x").deref)]

/-- `{ let mut a = 1; let mut x = (let mut x = &mut a, let mut y = &mut *x); }` -/
def hidesBorrow : Term :=
  .block {} (.inside 1 (.root 0))
    [.letMut {} "a" {} (.value {} (.int 1)), .letMut {} "x" {} borrowsOn]

/-- The variables of `hidesBorrow` after `borrowsOn`, with `x` of the given type. -/
def afterBorrows (T : Ty) : Env := .declaring (.inside 1 (.root 0))
  [("a", .int), ("x", T), ("y", .borrowOf true (Place.var "x").deref)]

/-- **A declaration takes the place of a variable in scope.** The program is accepted. After the
initialiser of `x` there is an `x` that borrows `a`, and `y` goes through it. The declaration puts
another slot there, so `a` is not borrowed any more, and what `y` borrows has no type. -/
theorem declared_new_hides :
    (Checker.checkProgram { extensions := Extension.all } (.root 0) hidesBorrow).result =
      .ok .unit ∧
    Checker.Visits { extensions := Extension.all } ⟨.empty, .root 0, hidesBorrow⟩
      ⟨.declaring (.inside 1 (.root 0)) [("a", .int)], .inside 1 (.root 0),
        .letMut {} "x" {} borrowsOn⟩ ∧
    (Checker.apply { extensions := Extension.all } (.declaring (.inside 1 (.root 0)) [("a", .int)])
      (.inside 1 (.root 0)) borrowsOn).result =
        .ok (afterBorrows (.borrowOf true (.var "a")), .compound [.unit, .unit]) ∧
    (Checker.apply { extensions := Extension.all } (.declaring (.inside 1 (.root 0)) [("a", .int)])
      (.inside 1 (.root 0)) (.letMut {} "x" {} borrowsOn)).result =
        .ok (afterBorrows (.compound [.unit, .unit]), .unit) ∧
    (afterBorrows (.borrowOf true (.var "a"))).get? "x" =
      some ⟨.borrowOf true (.var "a"), .inside 1 (.root 0)⟩ ∧
    typeOf (afterBorrows (.borrowOf true (.var "a"))) (Place.var "x").deref = .ok .int ∧
    typeOf (afterBorrows (.compound [.unit, .unit])) (Place.var "x").deref =
      .error (.invalidPath (Place.var "x").deref) ∧
    (afterBorrows (.compound [.unit, .unit])).writeProhibited (.var "a") = false :=
  ⟨rfl, .single (.statementAt 1 rfl rfl), rfl, rfl, by decide, by rfl, by rfl, by decide⟩

end Checker

end Ownership
