import Ownership.Proofs.Checking.Additions
import Ownership.Proofs.Checking.Declarations
import Ownership.Proofs.Checking.Grounded
import Ownership.Proofs.Checking.Outlives

/-!
# Joining an environment with itself

A conditional whose arms change nothing joins an environment with itself. That is possible just if
every variable has a type that is compatible with itself (`Env.Grounded`), and then nothing changes
(`join_self`). The checker does not ensure it: the first target of a borrow stands for the others in
a comparison, and after a move in one arm, or behind another borrow, it may have no type.

* `Checker.apply_idle`: such a conditional is accepted just if the environment is grounded.
* `Checker.unchanged_by_self_join`: **joining an environment with itself changes nothing where it is
  grounded**, and in programs that means that the first target of every borrow has a type.
* `Checker.unchanged_by_self_join_unsettled`: programs that pass through environments that have no
  join with themselves.
-/

namespace Ownership

variable {c : Checker} {variance : Variance} {Γ Γ₁ Γ' J : Env} {l inner : Lifetime} {t : Term}
variable {ts : List Term} {T U : Ty} {K : List String} {root : Lifetime} {program : Term}

/-- **An environment has a join with itself just if it is grounded**, and then it is the join. -/
theorem join_self : join variance Γ Γ = .ok J ↔ J = Γ ∧ Γ.Grounded variance := by
  rw [join_eq_ok]
  constructor
  · rintro ⟨hnone, hsome⟩
    refine ⟨NameMap.ext_get? fun x => ?_, fun x s hs => ?_⟩
    · cases hs : Γ.get? x with
      | none => exact (hnone x hs).1
      | some s => exact (hsome x s hs).of_same hs
    · obtain ⟨s', -, hs', -, hc, -⟩ := hsome x s hs
      cases hs.symm.trans hs'
      exact compatible_self.1 hc
  · rintro ⟨rfl, h⟩
    exact ⟨fun x hx => ⟨hx, hx⟩, fun x s hs =>
      ⟨s, s.ty, hs, rfl, compatible_self.2 (h x s hs), Ty.union_of_under (.refl s.ty), hs⟩⟩

/-! ### Conditionals that do nothing -/

/-- What two operands leave that change nothing, once they have been released. -/
theorem Parked.release_pair (l : Lifetime) (Γ : Env) (T U : Ty) :
    (park l (park l [] (Γ, T)).names ((park l [] (Γ, T)).env, U)).release = (Γ, [T, U]) := by
  obtain ⟨-, hx⟩ := Γ.freshName_spec
  simp only [park, release, List.nil_append]
  generalize Γ.freshName = x at hx ⊢
  obtain ⟨-, hy⟩ := Env.freshName_spec (Γ.insert x ⟨T, l.global⟩)
  generalize Env.freshName (Γ.insert x ⟨T, l.global⟩) = y at hy ⊢
  have hyx : y ≠ x := by
    rintro rfl
    rw [NameMap.get?_insert_self] at hy
    cases hy
  rw [NameMap.get?_insert, if_neg hyx] at hy
  refine Prod.ext (NameMap.ext_get? fun n => ?_) ?_
  · rw [NameMap.get?_eraseAll]
    split
    · rename_i hn
      rcases List.mem_cons.1 hn with rfl | hn
      · exact hx.symm
      · rw [List.mem_singleton.1 hn, hy]
    · rename_i hn
      simp only [List.cons_append, List.nil_append, List.mem_cons, List.not_mem_nil, or_false,
        not_or] at hn
      rw [NameMap.get?_insert, if_neg hn.2, NameMap.get?_insert, if_neg hn.1]
  · simp [NameMap.get?_insert, hyx.symm]

/-- A block that declares nothing leaves all variables. -/
theorem Env.Scoped.dropLifetime_inner (h : Γ.Scoped l K T) (hi : inner.parent? = some l) :
    Γ.dropLifetime inner = Γ := by
  refine NameMap.ext_get? fun x => Option.ext fun s => ?_
  rw [get?_dropLifetime]
  refine ⟨And.left, fun hs => ⟨hs, ?_⟩⟩
  rintro rfl
  obtain ⟨i, e⟩ := Lifetime.eq_inside hi
  have hw := h.level x s hs
  rw [e, Lifetime.not_within_inside] at hw
  cases hw

namespace Checker

/-- **A conditional that does nothing**: it compares two integers, and its arms are empty. -/
inductive Idle (c : Checker) : Term → Prop where
  | mk {sp sp₁ sp₂ sp₃ sp₄ : Span} {o : Nat} {e : Bool} {a b : Int} {i j : Lifetime} :
      formOf? c.extensions o = some (.conditional e) →
      Idle c (.ext sp o
        [.value sp₁ (.int a), .value sp₂ (.int b), .block sp₃ i [], .block sp₄ j []])

/-- Two arms that change nothing are merged just if the environment has a join with itself. -/
theorem merge_self : c.merge (Γ, .unit) (Γ, .unit) = .ok (Γ', T) ↔
    Γ' = Γ ∧ T = .unit ∧ Γ.Grounded c.variance := by
  rw [merge_eq_ok, join_self]
  constructor
  · rintro ⟨-, ⟨rfl, hg⟩, hu⟩
    cases hu
    exact ⟨rfl, rfl, hg⟩
  · rintro ⟨rfl, rfl, hg⟩
    exact ⟨rfl, ⟨rfl, hg⟩, rfl⟩

/-- **A conditional that does nothing is accepted just if the environment is grounded**, and leaves
it as it is. -/
theorem apply_idle (hi : c.Idle t) (h : c.Situated ⟨Γ, l, t⟩) :
    (c.apply Γ l t).result = .ok (Γ', T) ↔ Γ' = Γ ∧ T = .unit ∧ Γ.Grounded c.variance := by
  obtain ⟨hform⟩ := hi
  rename_i sp sp₁ sp₂ sp₃ sp₄ o e a b i j
  obtain ⟨K, -, hΓ⟩ := h.scope
  have harm : ∀ sp k, Term.block sp k [] ∈ [Term.value sp₁ (.int a), .value sp₂ (.int b),
      .block sp₃ i [], .block sp₄ j []] →
      (c.apply Γ l (.block sp k [])).result = .ok (Γ, .unit) := by
    intro sp k hk
    rw [apply_of_block sequence_of_nil rfl,
      hΓ.dropLifetime_inner (Orderly.ext h.orderly hk).nested.1]
  have htrue := harm sp₃ i (by simp)
  have hfalse := harm sp₄ j (by simp)
  have hrel := Parked.release_pair l Γ .int .int
  rw [← merge_self]
  constructor
  · intro ha
    obtain ⟨left, right, Γ₁, Ts, tt, ff, hl, hr, hrel', -, ht, hf, hm⟩ :=
      apply_conditional hform ha
    cases hl.symm.trans apply_of_int
    cases hr.symm.trans apply_of_int
    cases hrel'.trans hrel
    cases ht.symm.trans htrue
    cases hf.symm.trans hfalse
    exact hm
  · intro hm
    exact apply_of_conditional hform apply_of_int apply_of_int hrel.symm rfl htrue hfalse hm

/-- With a conditional that does nothing among them statements come to the same. -/
theorem sequence_idle {before after : List Term} (hi : c.Idle t) (h : c.Situated ⟨Γ₁, l, t⟩)
    (hb : (c.sequence Γ l T before).result = .ok (Γ₁, U)) (hg : Γ₁.Grounded c.variance)
    (hafter : after ≠ []) :
    (c.sequence Γ l T (before ++ t :: after)).result =
      (c.sequence Γ l T (before ++ after)).result := by
  rw [sequence_of_append hb, sequence_of_append hb,
    sequence_of_cons ((apply_idle hi h).2 ⟨rfl, rfl, hg⟩)]
  -- the next statement does not ask for the type of the one before
  cases after with
  | nil => exact absurd rfl hafter
  | cons u us => simp only [sequence]

/-! ### Programs -/

/-- Initialisers that do not declare the names that they are for leave these new. -/
theorem neat_of_declares {a : Site} (hv : c.variance = .covariant)
    (hd : ∀ Γ l sp x xs t, c.Visits a ⟨Γ, l, .letMut sp x xs t⟩ → x ∉ t.declares) :
    Neat c (c.Visits a) where
  fresh := by
    intro Γ Γ₁ l sp x xs t T hok hx h
    cases hx₁ : Γ₁.get? x with
    | none => rfl
    | some s' =>
      rcases (continues_apply t h).origin x s' hx₁ with ⟨s, hs, -⟩ | ⟨hm, -⟩
      · rw [NameMap.contains_eq_false_iff.1 hx] at hs
        cases hs
      · exact absurd hm (hd _ _ _ _ _ _ hok)
  arms := fun _ _ => .inl hv

/-- **The variables have shapes** in every environment that is passed through. -/
theorem shaped_of_reaches (ho : c.Orderly root program)
    (hn : c.extensions ≠ [] → Neat c (c.Visits ⟨.empty, root, program⟩))
    (hr : c.Reaches ⟨.empty, root, program⟩ Γ) : ∃ σ, Γ.Shaped σ := by
  have law : Stable c (c.Visits ⟨.empty, root, program⟩) (Lent fun _ _ _ => True) :=
    .lent (fun _ _ => trivial) (fun _ _ _ _ => trivial) hn
  obtain ⟨U, -, σ, hkept⟩ := law.reaches (.empty ho Lent.empty) (fun _ hb => hb) hr
  exact ⟨σ, hkept.shaped⟩

/-- **Joining an environment with itself changes nothing where it is grounded.** It has a join with
itself just if it is, and then it is the join. A conditional that does nothing is accepted anywhere
in a list of statements just if the environment is grounded there; it leaves the environment as it
was, and the statements after it come to the same as without it. In a program in which no
initialiser declares the variable that it is for, an environment is grounded just if the first
target of every borrow has a type. -/
theorem unchanged_by_self_join (c : Checker) :
    (∀ Γ J, join c.variance Γ Γ = .ok J ↔ J = Γ ∧ Γ.Grounded c.variance) ∧
    ∀ root program, c.Orderly root program →
      (∀ Γ l sp inner before t after Γ₁ T₁, c.Idle t →
        c.Visits ⟨.empty, root, program⟩ ⟨Γ, l, .block sp inner (before ++ t :: after)⟩ →
        (c.sequence Γ inner .unit before).result = .ok (Γ₁, T₁) →
        (∀ Γ₂ T₂, (c.apply Γ₁ inner t).result = .ok (Γ₂, T₂) ↔
          Γ₂ = Γ₁ ∧ T₂ = .unit ∧ Γ₁.Grounded c.variance) ∧
        (Γ₁.Grounded c.variance → after ≠ [] →
          (c.sequence Γ inner .unit (before ++ t :: after)).result =
            (c.sequence Γ inner .unit (before ++ after)).result)) ∧
      (c.variance = .covariant → (∀ Γ l sp x xs t,
          c.Visits ⟨.empty, root, program⟩ ⟨Γ, l, .letMut sp x xs t⟩ → x ∉ t.declares) →
        ∀ Γ, c.Reaches ⟨.empty, root, program⟩ Γ →
          (Γ.Grounded c.variance ↔ Γ.FirstsTyped)) := by
  refine ⟨fun _ _ => join_self, fun root program ho => ⟨?_, fun hv hd Γ hr => ?_⟩⟩
  · intro Γ l sp inner before t after Γ₁ T₁ hi hvisit hb
    have hstart : c.Situated ⟨.empty, root, program⟩ := ⟨ho, [], fun _ => rfl, .empty root⟩
    have hsite := (hstart.visits hvisit).statement hb
    exact ⟨fun _ _ => apply_idle hi hsite, sequence_idle hi hsite hb⟩
  · obtain ⟨σ, hσ⟩ := shaped_of_reaches ho (fun _ => neat_of_declares hv hd) hr
    exact hσ.grounded_iff

/-- No initialiser on the way declares the variable that it is for. -/
theorem not_declares_of_sites {a : Site} {sp xs : Span} {x : String}
    (h : (c.sites a.env a.lifetime a.term).all (fun b => match b.term with
      | .letMut _ x _ t => decide (x ∉ t.declares)
      | _ => true) = true) (hv : c.Visits a ⟨Γ, l, .letMut sp x xs t⟩) : x ∉ t.declares :=
  of_decide_eq_true (List.all_eq_true.1 h _ (mem_sites hv))

/-- `if 1 == 1 { } else { }`, in the outermost block of a program. -/
def idle : Term :=
  .ext {} 40 [.value {} (.int 1), .value {} (.int 1),
    .block {} (.inside 8 (.inside 1 (.root 0))) [], .block {} (.inside 9 (.inside 1 (.root 0))) []]

/-- `let mut p = 1; let mut q = 2; let mut x = &p; if 1 == 1 { x = &q; } else { }`, in this
block. -/
def choosing : List Term :=
  [.letMut {} "p" {} (.value {} (.int 1)), .letMut {} "q" {} (.value {} (.int 2)),
    .letMut {} "x" {} (.borrow {} false (.var "p")),
    .ext {} 40 [.value {} (.int 1), .value {} (.int 1),
      .block {} (.inside 2 (.inside 1 (.root 0)))
        [.assign {} (.var "x") (.borrow {} false (.var "q"))],
      .block {} (.inside 3 (.inside 1 (.root 0))) []]]

/-- The variables after `choosing`: `x` may borrow `p` or `q`. -/
def chosen : Env := .declaring (.inside 1 (.root 0))
  [("p", .int), ("q", .int), ("x", .borrow false (.ofList [.var "p", .var "q"]))]

/-- `let mut y = x;` -/
def copyChosen : Term := .letMut {} "y" {} (.access {} .inferred (.var "x"))

theorem unchanged_by_self_join_chosen :
    Orderly { extensions := Extension.all } (.root 0)
      (.block {} (.inside 1 (.root 0)) (choosing ++ idle :: [copyChosen])) ∧
    (sequence { extensions := Extension.all } .empty (.inside 1 (.root 0)) .unit choosing).result =
      .ok (chosen, .unit) ∧
    join .covariant chosen chosen = .ok chosen ∧ chosen.FirstsTyped ∧
    (apply { extensions := Extension.all } chosen (.inside 1 (.root 0)) idle).result =
      .ok (chosen, .unit) ∧
    (sequence { extensions := Extension.all } .empty (.inside 1 (.root 0)) .unit
        (choosing ++ idle :: [copyChosen])).result =
      (sequence { extensions := Extension.all } .empty (.inside 1 (.root 0)) .unit
        (choosing ++ [copyChosen])).result := by
  have ho : Orderly { extensions := Extension.all } (.root 0)
      (.block {} (.inside 1 (.root 0)) (choosing ++ idle :: [copyChosen])) := by
    refine ⟨?_, fun _ x hx => Env.ne_temporary ?_⟩
    · simp [choosing, idle, copyChosen, Term.Nested, Term.AllNested, Lifetime.parent?]
    · revert x
      decide
  have hb : (sequence { extensions := Extension.all } .empty (.inside 1 (.root 0)) .unit
      choosing).result = .ok (chosen, .unit) := rfl
  have hr : Reaches { extensions := Extension.all } ⟨.empty, .root 0,
      .block {} (.inside 1 (.root 0)) (choosing ++ idle :: [copyChosen])⟩ chosen :=
    ⟨_, .single (.statement hb), .inl rfl⟩
  have hj : join .covariant chosen chosen = .ok chosen := rfl
  obtain ⟨hself, hprogram⟩ := unchanged_by_self_join { extensions := Extension.all }
  obtain ⟨hidle, hgrounded⟩ := hprogram _ _ ho
  have hg := ((hself _ _).1 hj).2
  obtain ⟨haccept, hrest⟩ := hidle _ _ _ _ _ _ _ _ _ (.mk (e := true) rfl) .refl hb
  exact ⟨ho, hb, hj, (hgrounded rfl (fun _ _ _ _ _ _ hv => not_declares_of_sites (by decide) hv)
    _ hr).1 hg, (haccept _ _).2 ⟨rfl, rfl, hg⟩,
    hrest hg (List.cons_ne_nil _ _)⟩

/-! ### Environments without a join with themselves -/

/-- The program is accepted. It passes through `Γ`, which has no join with itself, so with a
conditional that does nothing at its end it is refused. -/
def Unsettled (program : List Term → Term) (Γ : Env) (v : Violation) : Prop :=
  (checkProgram { extensions := Extension.all } (.root 0) (program [])).result = .ok .unit ∧
    Orderly { extensions := Extension.all } (.root 0) (program []) ∧
    Reaches { extensions := Extension.all } ⟨.empty, .root 0, program []⟩ Γ ∧
    join .covariant Γ Γ = .error v ∧
    (checkProgram { extensions := Extension.all } (.root 0) (program [idle])).result =
      .error ⟨v, {}⟩

/-- `{ let mut p = box 1; let mut q = 2; let mut x = &q;`
`if 1 == 1 { x = &*p; } else { let mut m = move p; } … }` -/
def lendOrMove (rest : List Term) : Term :=
  .block {} (.inside 1 (.root 0)) ([.letMut {} "p" {} (.box {} (.value {} (.int 1))),
    .letMut {} "q" {} (.value {} (.int 2)), .letMut {} "x" {} (.borrow {} false (.var "q")),
    .ext {} 40 [.value {} (.int 1), .value {} (.int 1),
      .block {} (.inside 2 (.inside 1 (.root 0)))
        [.assign {} (.var "x") (.borrow {} false (Place.var "p").deref)],
      .block {} (.inside 3 (.inside 1 (.root 0)))
        [.letMut {} "m" {} (.access {} .move (.var "p"))]]] ++ rest)

/-- `&*p,q` -/
def lentOrMoved : Ty := .borrow false (.ofList [(Place.var "p").deref, .var "q"])

/-- `{ let mut x = 1; let mut y = &x; let mut z = &**y; … }` -/
def lendBehind (rest : List Term) : Term :=
  .block {} (.inside 1 (.root 0)) ([.letMut {} "x" {} (.value {} (.int 1)),
    .letMut {} "y" {} (.borrow {} false (.var "x")),
    .letMut {} "z" {} (.borrow {} false (Place.var "y").deref.deref)] ++ rest)

/-- `{ let mut x = (let mut x = 1, &mut x); … }` -/
def lendSelf (rest : List Term) : Term :=
  .block {} (.inside 1 (.root 0)) ([.letMut {} "x" {} (.ext {} 30
    [.letMut {} "x" {} (.value {} (.int 1)), .borrow {} true (.var "x")])] ++ rest)

/-- The variable of `lendSelf`, which leads back to itself. -/
def lentSelf : Env := .declaring (.inside 1 (.root 0))
  [("x", .compound [.unit, .borrowOf true (.var "x")])]

/-- **An environment may have no join with itself**: where one arm of a conditional borrows from
what the other one moves away, after a borrow behind a borrow that leads nowhere, and where a
variable takes the place of another one that it borrows. In the last case the first target of every
borrow has a type. -/
theorem unchanged_by_self_join_unsettled :
    Unsettled lendOrMove (.declaring (.inside 1 (.root 0))
        [("p", .shadow (.box .int)), ("q", .int), ("x", lentOrMoved)])
      (.incompatible lentOrMoved lentOrMoved) ∧
    Unsettled lendBehind (.declaring (.inside 1 (.root 0)) [("x", .int),
        ("y", .borrowOf false (.var "x")), ("z", .borrowOf false (Place.var "y").deref.deref)])
      (.incompatible (.borrowOf false (Place.var "y").deref.deref)
        (.borrowOf false (Place.var "y").deref.deref)) ∧
    Unsettled lendSelf lentSelf .endless ∧ lentSelf.FirstsTyped := by
  refine ⟨⟨rfl, ⟨?_, fun _ x hx => Env.ne_temporary ?_⟩, ?_, rfl, rfl⟩,
    ⟨rfl, ⟨?_, fun _ x hx => Env.ne_temporary ?_⟩, ?_, rfl, rfl⟩,
    ⟨rfl, ⟨?_, fun _ x hx => Env.ne_temporary ?_⟩, ?_, rfl, rfl⟩, ?_⟩
  · simp [lendOrMove, Term.Nested, Term.AllNested, Lifetime.parent?]
  · revert x
    decide
  · exact ⟨_, .single (.statementAt 3 rfl rfl), .inr ⟨.unit, rfl⟩⟩
  · simp [lendBehind, Term.Nested, Term.AllNested, Lifetime.parent?]
  · revert x
    decide
  · exact ⟨_, .single (.statementAt 2 rfl rfl), .inr ⟨.unit, rfl⟩⟩
  · simp [lendSelf, Term.Nested, Term.AllNested, Lifetime.parent?]
  · revert x
    decide
  · exact ⟨_, .single (.statementAt 0 rfl rfl), .inr ⟨.unit, rfl⟩⟩
  · intro x s hs m ps hb
    cases List.mem_singleton.1 (NameMap.mem_entries_iff.2 hs)
    cases List.mem_singleton.1 hb
    exact ⟨_, .var "x", rfl, rfl⟩

end Checker

end Ownership
