import Ownership.Program
import Ownership.Proofs.Soundness.Preservation

/-!
# Soundness of the checker

A program is a block directly under a root (`Term.Program`). If the checker accepts it
and it is careful, both strategies run it to the same value and state, and nothing is left
in the heap but what the value owns (`run_checked`).

* `evaluate_checked`: **careful programs that the checker accepts do not fault.**
* `evaluate_checked_slips`: none of the tests for careful programs can be left out. Three programs
  are accepted and fault, and each of them fails one of the tests.
-/

namespace Ownership

open Machine

variable {m : Machine} {c : Checker} {root l inner : Lifetime} {t : Term} {ts : List Term} {T : Ty}
variable {s s' : State} {W : World} {v : Value} {d : Content} {cs : List Content} {whole : Bool}

/-- **What is asked of the text of a program.** Its blocks are opened one inside the other under
`root`, its literals are integers, and no name is one that the checker makes up. -/
structure Term.Program (root : Lifetime) (t : Term) : Prop where
  outermost : root.isRoot = true
  block : ∃ sp inner ts, t = .block sp inner ts
  nested : t.Nested root
  plain : t.Plain
  names : ∀ x ∈ t.names, ¬ "$tmp".toList <+: x.toList

theorem Term.Program.written (h : t.Program root) : Written root t where
  plain := h.plain
  nested := h.nested
  named := fun x hx => Env.ne_temporary (h.names x hx)
  declares := by
    obtain ⟨sp, inner, ts, rfl⟩ := h.block
    exact fun _ => rfl

/-! ### The empty state -/

theorem Coherent.empty (l : Lifetime) : Coherent {} l [] [] where
  safe := ⟨.nil, nofun, .nil, nofun⟩
  holds := ⟨.nil, fun a c => by simp [Store.cell?, World.cells]⟩
  frame := fun x b => by simp [NameMap.get?_empty]
  level := nofun

theorem Typed.empty : Typed .empty [] [] where
  root := nofun
  parked := nofun
  slot := fun x s h => by simp at h
  named := nofun
  temporary := nofun
  distinct := .nil

theorem World.Straight.empty : World.Straight [] [] where
  targets := nofun
  acyclic := fun x hx => by
    cases hx with
    | single hl => obtain ⟨r, hr, -⟩ := hl; cases hr
    | tail _ hl => obtain ⟨r, hr, -⟩ := hl; cases hr

/-- No variable is left directly under a root. -/
theorem Coherent.world_eq_nil (h : Coherent s root W cs) (hr : root.isRoot = true) : W = [] := by
  refine List.eq_nil_iff_forall_not_mem.2 fun r hm => ?_
  obtain ⟨hl, hw⟩ := h.level r hm
  cases root with
  | root i =>
    rw [Lifetime.within, beq_iff_eq] at hw
    rw [← hw] at hl
    cases hl
  | inside => cases hr

/-! ### Runs of programs -/

/-- A run that leaves a sound heap passes every check. -/
theorem Machine.Runs.evaluate [HashOrder] (h : m.Runs l [] s t s' v) (ht : t.value? = none) :
    (m.evaluate s l t).result = .ok (s', v) := by
  have checked : ∀ {s t}, HeapSound [] s t → s.store.checkHeap t.values = .ok () := by
    intro s t hs
    rw [HeapSound, List.append_nil] at hs
    exact hs.checkHeap_ok
  cases hm : m.strategy with
  | smallStep => exact evaluate_eq hm (h.small.mono fun _ _ hs _ => checked hs)
  | bigStep =>
    obtain ⟨sp, hs⟩ := h.small.last ht
    have hv : s'.store.checkHeap [v] = .ok () := checked hs
    rw [evaluate_bigStep hm ht, h.big, Traced.ok_bind]
    simp only [hv]
    split <;> rfl

/-- **The run of a careful program that the checker accepts.** The state that it ends in holds
nothing but the content that has been found. -/
theorem run_checked [HashOrder] (ht : t.Program root) (hs : whole = false → t.straight = true)
    (hcheck : (c.checkProgram root t).result = .ok T)
    (hcare : c.careful whole .empty root t = true) :
    ∃ s d, Coherent s root [] [d] ∧ Refines false T d ∧ T.defined = true ∧
      ∀ strategy checkInvariants,
        (evaluate ⟨strategy, checkInvariants, c.extensions⟩ {} root t).result =
          .ok (s, d.value) := by
  obtain ⟨Γ', h⟩ : ∃ Γ', (c.apply .empty root t).result = .ok (Γ', T) := by
    simp only [Checker.checkProgram, Traced.result_bind, Traced.bind_eq_ok] at hcheck
    obtain ⟨x, h, e⟩ := hcheck
    cases e
    exact ⟨x.1, h⟩
  have hfit : Fit c whole .empty root t := ⟨ht.written, hcare, hs⟩
  have run : ∀ m : Machine, m.extensions = c.extensions →
      ∃ s W d, Landing m whole root [] {} t Γ' T s W d := fun m hm =>
    preserves hm t hfit .empty (.empty root) (fun _ => .empty) h
  obtain ⟨s, W, d, hd⟩ := run ⟨.bigStep, true, c.extensions⟩ rfl
  have hW := hd.coherent.world_eq_nil ht.outermost
  subst hW
  refine ⟨s, d, hd.coherent, hd.refines, hd.defined, fun strategy checkInvariants => ?_⟩
  -- all machines find the same, since they take the same big steps
  obtain ⟨s', W', d', hd'⟩ := run ⟨strategy, checkInvariants, c.extensions⟩ rfl
  have hb : bigValue ⟨strategy, checkInvariants, c.extensions⟩ =
      bigValue ⟨.bigStep, true, c.extensions⟩ := bigValue_congr rfl
  have hbig := hd'.runs.big
  rw [hb, hd.runs.big] at hbig
  obtain ⟨sp, inner, ts, rfl⟩ := ht.block
  rw [hd'.runs.evaluate rfl]
  exact hbig.symm

/-- **Careful programs that the checker accepts do not fault**, whichever strategy runs them and
whether the heap is checked or not. In a program without components no write has to be compared. -/
theorem evaluate_checked [HashOrder] (ht : t.Program root)
    (hcheck : (c.checkProgram root t).result = .ok T)
    (hcare : c.careful (!t.straight) .empty root t = true) (strategy : Strategy)
    (checkInvariants : Bool) : ∃ s v,
      (evaluate ⟨strategy, checkInvariants, c.extensions⟩ {} root t).result = .ok (s, v) := by
  obtain ⟨s, d, -, -, -, h⟩ := run_checked ht (fun hw => by simpa using hw) hcheck hcare
  exact ⟨s, d.value, h strategy checkInvariants⟩

/-- `{ let mut x = (1, 2); let mut y = &mut x.0; *y = 3; copy *y }`, which writes to a component. -/
def componentWrite : Term :=
  .block {} (.inside 1 (.root 0)) [
    .letMut {} "x" {} (.ext {} 30 [.value {} (.int 1), .value {} (.int 2)]),
    .letMut {} "y" {} (.borrow {} true ((Place.var "x").index 0)),
    .assign {} (Place.var "y").deref (.value {} (.int 3)),
    .access {} .copy (Place.var "y").deref]

theorem program_componentWrite : componentWrite.Program (.root 0) where
  outermost := rfl
  block := ⟨_, _, _, rfl⟩
  nested := by simp [componentWrite, Term.Nested, Term.AllNested, Lifetime.parent?]
  plain := by decide
  names := by decide

theorem evaluate_checked_componentWrite : componentWrite.Program (.root 0) ∧
    (Checker.checkProgram { extensions := Extension.all } (.root 0) componentWrite).result =
      .ok .int ∧
    Checker.careful { extensions := Extension.all } (!componentWrite.straight) .empty (.root 0)
      componentWrite = true ∧
    ∃ s v, (evaluate ⟨.smallStep, true, Extension.all⟩ {} (.root 0) componentWrite).result =
      .ok (s, v) := by
  have hcheck : (Checker.checkProgram { extensions := Extension.all } (.root 0)
      componentWrite).result = .ok .int := ok_of_toOption (by decide +kernel)
  have hcare : Checker.careful { extensions := Extension.all } (!componentWrite.straight) .empty
      (.root 0) componentWrite = true := by decide +kernel
  exact ⟨program_componentWrite, hcheck, hcare,
    evaluate_checked program_componentWrite hcheck hcare .smallStep true⟩

/-! ### Programs that are not careful -/

/-- `{ let mut x = 1; let mut y = &x; let mut z = &**y; }`: there is nothing behind the integer. -/
def borrowBehindInt : Term :=
  .block {} (.inside 1 (.root 0)) [.letMut {} "x" {} (.value {} (.int 1)),
    .letMut {} "y" {} (.borrow {} false (.var "x")),
    .letMut {} "z" {} (.borrow {} false (Place.var "y").deref.deref)]

/-- `{ let mut y = box 1; let mut x = (let mut x = &*y, 0); y = box 2; }`: the outer `x` hides the
inner one, which still borrows. -/
def hiddenBorrow : Term :=
  .block {} (.inside 1 (.root 0)) [.letMut {} "y" {} (.box {} (.value {} (.int 1))),
    .letMut {} "x" {} (.ext {} 30
      [.letMut {} "x" {} (.borrow {} false (Place.var "y").deref), .value {} (.int 0)]),
    .assign {} (.var "y") (.box {} (.value {} (.int 2)))]

/-- `{ let mut a = 0; let mut b = box 1; let mut c = 2; let mut j = &mut c; let mut x = (&mut j,
&mut a); x.0 = &mut x.1; *x.0 = &mut *b; b = box 5; }`: the write behind `x.0` is one to `x.1`,
which the checker forgets. -/
def lostWrite : Term :=
  .block {} (.inside 1 (.root 0)) [.letMut {} "a" {} (.value {} (.int 0)),
    .letMut {} "b" {} (.box {} (.value {} (.int 1))), .letMut {} "c" {} (.value {} (.int 2)),
    .letMut {} "j" {} (.borrow {} true (.var "c")),
    .letMut {} "x" {} (.ext {} 30 [.borrow {} true (.var "j"), .borrow {} true (.var "a")]),
    .assign {} ((Place.var "x").index 0) (.borrow {} true ((Place.var "x").index 1)),
    .assign {} ((Place.var "x").index 0).deref (.borrow {} true (Place.var "b").deref),
    .assign {} (.var "b") (.box {} (.value {} (.int 5)))]

/-- The program is accepted, and it faults with both strategies, whatever the order of hash maps. -/
def Slips (t : Term) (e : Fault) : Prop :=
  t.Program (.root 0) ∧
    (Checker.checkProgram { extensions := Extension.all } (.root 0) t).result = .ok .unit ∧
    ∀ (order : HashOrder) strategy,
      (@evaluate order ⟨strategy, true, Extension.all⟩ {} (.root 0) t).result = .error e

theorem slips_of {e : Fault} (ht : t.Program (.root 0))
    (hcheck : (Checker.checkProgram { extensions := Extension.all } (.root 0) t).result.toOption =
      some .unit)
    (hrun : ∀ strategy,
      (@evaluate .ascending ⟨strategy, true, Extension.all⟩ {} (.root 0) t).result = .error e)
    (he : ∀ a n, e ≠ .ownershipInvariant a n) : Slips t e :=
  ⟨ht, ok_of_toOption hcheck, fun order strategy =>
    (evaluate_concur .ascending order _ _ _ _).error (hrun strategy) he⟩

/-- **The checker passes over faults**: a place behind a borrow that leads nowhere, a declaration
inside of an initialiser of the same variable, and a write that comes back to the variable that it
goes through. -/
theorem evaluate_checked_slips :
    Slips borrowBehindInt (.expectedReference "1") ∧ Slips hiddenBorrow (.danglingReference 0) ∧
      Slips lostWrite (.danglingReference 1) := by
  refine ⟨slips_of ⟨rfl, ⟨_, _, _, rfl⟩, ?_, by decide, by decide⟩ (by decide +kernel) ?_ nofun,
    slips_of ⟨rfl, ⟨_, _, _, rfl⟩, ?_, by decide, by decide⟩ (by decide +kernel) ?_ nofun,
    slips_of ⟨rfl, ⟨_, _, _, rfl⟩, ?_, by decide, by decide⟩ (by decide +kernel) ?_ nofun⟩
  · simp [borrowBehindInt, Term.Nested, Term.AllNested, Lifetime.parent?]
  · rintro ⟨⟩ <;> decide +kernel
  · simp [hiddenBorrow, Term.Nested, Term.AllNested, Lifetime.parent?]
  · rintro ⟨⟩ <;> decide +kernel
  · simp [lostWrite, Term.Nested, Term.AllNested, Lifetime.parent?]
  · rintro ⟨⟩ <;> decide +kernel

end Ownership
