import Ownership.Proofs.Soundness.Programs

/-!
# The law of the fragment

In a term without components, where variables are declared and assigned by statements
only and a borrow goes through at most one reference (`Term.simple`), the checker passes over
nothing (`careful_of_simple`). Its programs satisfy the full law.

* `Inhabits`: the values of a type, in a store.
* `evaluate_simple`: **an accepted program runs to a value of its type with both strategies, to the
  same state, and dropping the value leaves no live cell.**
-/

namespace Ownership

open Machine

variable {c : Checker} {Γ : Env} {root l : Lifetime} {t : Term} {ts : List Term} {T : Ty}
variable {s : State} {W : World} {d : Content} {cs : List Content} {statement : Bool} {p : Place}

/-! ### Terms of the fragment are careful -/

theorem typedBehind_of_length (hp : p.path.length ≤ 1) : typedBehind Γ p = true := by
  rw [typedBehind]
  cases Γ.get? p.name with
  | none => rfl
  | some slot =>
    cases hf : slot.ty.follow p.path with
    | crossed m ps rest =>
      have := Ty.length_of_crossed hf
      cases rest with
      | nil => simp only [hf]
      | cons a rest =>
        simp only [List.length_cons] at this
        omega
    | _ => simp only [hf]

attribute [local simp] Checker.careful Checker.carefulAll Checker.carefulOperands

theorem passes_of_forall {ω ε α : Type} {x : Traced ω ε α} {test : α → Bool}
    (h : ∀ a, test a = true) : x.passes test = true := by
  rw [Traced.passes]
  split
  · exact h _
  · rfl

/-- **A term of the fragment passes the tests that it is not compared for.** -/
theorem careful_of_simple (c : Checker) (h : t.simple statement = true) :
    c.careful false Γ l t = true := by
  induction t generalizing Γ l statement with
  | letMut s x xs t ih =>
    rw [Term.simple, Bool.and_eq_true] at h
    simp [ih h.2, Term.declares_of_simple h.2]
  | assign s p t ih =>
    rw [Term.simple, Bool.and_eq_true] at h
    simp [ih h.2]
  | block s inner ts ih =>
    have each := Term.allSimple_iff.1 h
    rw [Checker.careful]
    clear h
    induction ts generalizing Γ with
    | nil => simp
    | cons t ts ihs =>
      rw [Checker.carefulAll, Bool.and_eq_true]
      refine ⟨ih t List.mem_cons_self (each t List.mem_cons_self), passes_of_forall fun a => ?_⟩
      exact ihs (fun t h => ih t (List.mem_cons_of_mem _ h))
        fun t h => each t (List.mem_cons_of_mem _ h)
  | access => simp
  | borrow s m p =>
    rw [Term.simple, Bool.and_eq_true, decide_eq_true_iff] at h
    simpa using typedBehind_of_length h.2
  | box s t ih => simpa using ih h
  | value => simp
  | ext s o ts ih =>
    have each := Term.allSimple_iff.1 h
    -- the operands, whatever is parked
    have operands : ∀ {P : Parked} {us : List Term}, (∀ u ∈ us, u ∈ ts) →
        c.carefulOperands false l P us = true := by
      intro P us hu
      induction us generalizing P with
      | nil => simp
      | cons u us ihs =>
        rw [Checker.carefulOperands, Bool.and_eq_true]
        have hm := hu u List.mem_cons_self
        exact ⟨ih u hm (each u hm), passes_of_forall fun a =>
          ihs fun t h => hu t (List.mem_cons_of_mem _ h)⟩
    unfold Checker.careful
    split
    · exact operands fun _ h => h
    · rename_i lhs rhs onTrue onFalse _
      have part : ∀ u ∈ [lhs, rhs, onTrue, onFalse], ∀ Γ, c.careful false Γ l u = true :=
        fun u hu Γ => ih u hu (each u hu)
      rw [Bool.and_eq_true]
      refine ⟨part lhs (by simp) _, passes_of_forall fun left => ?_⟩
      rw [Bool.and_eq_true]
      refine ⟨part rhs (by simp) _, passes_of_forall fun right => ?_⟩
      rw [Bool.and_eq_true]
      exact ⟨part onTrue (by simp) _, part onFalse (by simp) _⟩
    · rfl

/-! ### The values of a type -/

/-- **The value is one of the type**, in the store. A box owns a live cell with a value of the
inner type, and a borrow does not own the live cell that it leads to. -/
inductive Inhabits (st : Store) : Ty → Value → Prop where
  | unit : Inhabits st .unit .unit
  | int {n : Int} : Inhabits st .int (.int n)
  | box {g : Ty} {a : Nat} {cell : Cell} : st.cell? a = some cell → Inhabits st g cell.value →
      Inhabits st (.box g) (.ref (.owned a))
  | borrow {mutable : Bool} {targets : PlaceSet} {r : Reference} {cell : Cell} : r.owner = false →
      st.cell? r.address = some cell → Inhabits st (.borrow mutable targets) (.ref r)
  | compound {gs : List Ty} {vs : List Value} : gs.length = vs.length →
      (∀ (i : Nat) g v, gs[i]? = some g → vs[i]? = some v → Inhabits st g v) →
      Inhabits st (.compound gs) (.compound vs)

/-- What refines a whole type, and is held in a coherent state, is one of its values. -/
theorem Coherent.inhabits (h : Coherent s l W cs) (hr : Refines false T d) (hT : T.defined = true)
    (hc : ∀ e ∈ d.cells l.global, e ∈ W.cells l.global cs) (hl : ∀ o ∈ d.loans, o ∈ W.loans cs) :
    Inhabits s.store T d.value := by
  generalize hk : false = k at hr
  induction hr with
  | unit => exact .unit
  | int => exact .int
  | @box k g a d hr ih =>
    rw [Content.cells_box] at hc
    rw [Content.loans_box] at hl
    exact .box (h.cell (hc _ List.mem_cons_self))
      (ih hT (fun e he => hc e (List.mem_cons_of_mem _ he)) hl hk)
  | @borrow k ps o hm hs =>
    -- the borrow leads to its target, and the cell of that is live
    obtain ⟨t, ht⟩ := h.safe.loans o (hl o (by simp [Content.loans]))
    obtain ⟨d, ha⟩ := ht.at
    obtain ⟨cell, hcell⟩ := h.exists_cell ha
    exact .borrow rfl hcell
  | @compound k gs ds hlen hr ih =>
    rw [Ty.defined, Ty.allDefined_eq, List.all_eq_true] at hT
    rw [Content.cells_compound] at hc
    rw [Content.loans_compound] at hl
    rw [Content.value_compound]
    refine .compound (by simpa using hlen) fun i g v hg hv => ?_
    rw [List.getElem?_map, Option.map_eq_some_iff] at hv
    obtain ⟨d, hd, rfl⟩ := hv
    have hm := List.mem_of_getElem? hd
    exact ih i g d hg hd (hT g (List.mem_of_getElem? hg))
      (fun e he => hc e (List.mem_flatMap.2 ⟨d, hm, he⟩))
      (fun o ho => hl o (List.mem_flatMap.2 ⟨d, hm, ho⟩)) hk
  | gone => cases hT
  | shadow => cases hT

/-- What is held outside of the store without any variable is all that is in it. -/
theorem Coherent.drop_all [HashOrder] (h : Coherent s l [] [d]) :
    ∃ st, (s.store.dropValue d.value []).result = .ok st ∧ st.liveCount = 0 := by
  obtain ⟨st, hd, hst⟩ := h.dropValue_ok [] rfl
  refine ⟨st, hd, ?_⟩
  exact hst.holds.live_perm.length_eq

/-- **An accepted program of the fragment** runs to the same value and the same state with both
strategies, in every order of hash maps. The value is one of the type that the checker has found,
and dropping it leaves no live cell. -/
theorem evaluate_simple (ht : t.Program root) (hs : t.simple false = true)
    (hcheck : (c.checkProgram root t).result = .ok T) : ∃ s v,
      (∀ (order : HashOrder) strategy checkInvariants,
        (@evaluate order ⟨strategy, checkInvariants, c.extensions⟩ {} root t).result =
          .ok (s, v)) ∧
      Inhabits s.store T v ∧
      ∃ st, (∀ order : HashOrder, (@Store.dropValue order s.store v []).result = .ok st) ∧
        st.liveCount = 0 := by
  obtain ⟨s, d, hc, hr, hT, h⟩ := @run_checked _ _ _ _ _ .ascending ht
    (fun _ => Term.straight_of_simple hs) hcheck (careful_of_simple c hs)
  obtain ⟨st, hd, hlive⟩ := @Coherent.drop_all _ _ _ .ascending hc
  -- the value holds its cells and borrows outside of the store
  refine ⟨s, d.value, fun order strategy checkInvariants => ?_,
    hc.inhabits hr hT (fun e he => ?_) (fun o ho => ?_), st, fun order => ?_, hlive⟩
  · exact (evaluate_concur .ascending order _ _ _ _).ok (h strategy checkInvariants)
  · exact List.mem_append_right _ (List.mem_append_left _ he)
  · exact List.mem_append_right _ (List.mem_append_left _ ho)
  · exact (Store.dropValue_concur .ascending order _ _ _).ok hd

/-- `{ let mut x = box 1; { let mut y = &mut x; *y = box 2; } (x, 3) }`, with `x` moved into the
result. -/
def movedBox : Term :=
  .block {} (.inside 1 (.root 0)) [.letMut {} "x" {} (.box {} (.value {} (.int 1))),
    .block {} (.inside 2 (.inside 1 (.root 0))) [.letMut {} "y" {} (.borrow {} true (.var "x")),
      .assign {} (Place.var "y").deref (.box {} (.value {} (.int 2)))],
    .ext {} 30 [.access {} .inferred (.var "x"), .value {} (.int 3)]]

theorem program_movedBox : movedBox.Program (.root 0) where
  outermost := rfl
  block := ⟨_, _, _, rfl⟩
  nested := by simp [movedBox, Term.Nested, Term.AllNested, Lifetime.parent?]
  plain := by decide
  names := by decide

theorem evaluate_simple_movedBox : movedBox.Program (.root 0) ∧ movedBox.simple false = true ∧
    (Checker.checkProgram { extensions := Extension.all } (.root 0) movedBox).result =
      .ok (.compound [.box .int, .int]) ∧
    ∃ s v, (∀ (order : HashOrder) strategy checkInvariants,
      (@evaluate order ⟨strategy, checkInvariants, Extension.all⟩ {} (.root 0) movedBox).result =
        .ok (s, v)) ∧
      Inhabits s.store (.compound [.box .int, .int]) v ∧
      ∃ st, (∀ order : HashOrder, (@Store.dropValue order s.store v []).result = .ok st) ∧
        st.liveCount = 0 := by
  have hcheck : (Checker.checkProgram { extensions := Extension.all } (.root 0) movedBox).result =
      .ok (.compound [.box .int, .int]) := ok_of_toOption (by decide +kernel)
  have hs : movedBox.simple false = true := by decide
  obtain ⟨s, v, hrun, hv⟩ := evaluate_simple program_movedBox hs hcheck
  refine ⟨program_movedBox, hs, hcheck, s, v, fun order strategy checkInvariants => ?_, hv⟩
  exact hrun order strategy checkInvariants

end Ownership
