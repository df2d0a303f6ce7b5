import Mathlib.Control.Monad.Basic
import Ownership.Proofs.Evaluation
import Ownership.Proofs.Owners
import Ownership.Proofs.Rules
import Ownership.Term.Parts

/-!
# Single ownership

A program that never copies what owns something keeps every box under one owner, whether a
checker accepts it or not. Every rule hands what it takes out of the heap to the
term, and the other way round, so each small step keeps the heap in balance with the
values that are left in the term.

* `Term.Linear`: no access is a forced copy, and the arms of conditionals own nothing.
* `Store.dropValue_failedIn`, `Store.dropLifetime_failedIn`: a drop fails inside `finalize` exactly
  if what it gives up cannot be freed, and in a heap in balance it can.
* `Machine.smallStep_balanced`: one step keeps the balance.
* `Machine.smallStep_frees`: one step does not fail inside `finalize`, on whatever part of the term
  it is made.
* `owned_reduce`: **at every step of every run each box has one owner**, and whatever is given up
  can be freed.
-/

namespace Ownership

variable {m : Machine} {l inner : Lifetime} {s s' : State} {t t' : Term} {ts : List Term}
variable {p : Place} {v w : Value} {vs ws : List Value}

namespace Term

mutual

/-- No access is a forced copy, no block lies in the heap, and no arm of a conditional owns
anything. -/
def Linear (es : List Extension) : Term → Prop
  | access _ kind _ => kind ≠ .copy
  | borrow .. | value .. => True
  | letMut _ _ _ t | assign _ _ t | box _ t => t.Linear es
  | block _ inner ts => inner.isRoot = false ∧ AllLinear es ts
  | ext _ opcode ts => AllLinear es ts ∧
      ∀ equal, formOf? es opcode = some (.conditional equal) →
        ∀ u ∈ ts.drop 2, u.values.flatMap Value.owned = []

def AllLinear (es : List Extension) : List Term → Prop
  | [] => True
  | t :: ts => t.Linear es ∧ AllLinear es ts

end

theorem allLinear_iff {es : List Extension} : AllLinear es ts ↔ ∀ t ∈ ts, t.Linear es := by
  induction ts with
  | nil => simp [AllLinear]
  | cons t ts ih => simp [AllLinear, ih]

end Term

/-! ### The rules -/

namespace Store

variable [HashOrder] {st st' : Store}

theorem dropValue_balanced (h : (st.dropValue v vs).result = .ok st') {ws : List Value}
    (hb : st.Balanced (v :: ws)) : st'.Balanced ws := by
  obtain ⟨⟨n, hf⟩, -⟩ := dropValue_ok.1 h
  have hb : st.Balanced ([v] ++ ws) := hb
  obtain ⟨x, hx, hb⟩ := hb.finalize
  rw [hf] at hx
  cases hx
  exact hb

theorem dropLifetime_balanced (h : (st.dropLifetime inner vs).result = .ok st')
    (hi : inner.isRoot = false) {ws : List Value} (hb : st.Balanced ws) : st'.Balanced ws := by
  obtain ⟨⟨n, hf⟩, -⟩ := dropLifetime_ok.1 h
  obtain ⟨x, hx, hb⟩ := (hb.freeCellsOf hi).finalize
  rw [hf] at hx
  cases hx
  exact hb

/-- To drop a value is to free what it owns, and nothing else in a drop can fail there. -/
theorem dropValue_failedIn (st : Store) (v : Value) (vs : List Value) :
    "finalize" ∈ (st.dropValue v vs).failedIn ↔ ∃ e, st.finalize [v] = .error e := by
  simp only [dropValue, Traced.mem_failedIn_bind, Traced.mem_failedIn_within, Traced.result_lift]
  refine or_iff_left ?_
  rintro ⟨x, -, h⟩
  split at h <;> simp [Traced.mem_failedIn_bind] at h

theorem dropLifetime_failedIn (st : Store) (l : Lifetime) (vs : List Value) :
    "finalize" ∈ (st.dropLifetime l vs).failedIn ↔
      ∃ e, (st.freeCellsOf l).finalize ((st.cellsOf l).map (·.value)) = .error e := by
  simp only [dropLifetime, Traced.mem_failedIn_bind, Traced.mem_failedIn_within,
    Traced.result_lift]
  refine or_iff_left ?_
  rintro ⟨x, -, h⟩
  simp at h

/-- What is held outside of a heap in balance can be dropped. -/
theorem dropValue_frees {ws : List Value} (hb : st.Balanced (v :: ws)) :
    "finalize" ∉ (st.dropValue v vs).failedIn := by
  rw [dropValue_failedIn]
  rintro ⟨e, he⟩
  have hb : st.Balanced ([v] ++ ws) := hb
  obtain ⟨x, hx, -⟩ := hb.finalize
  rw [hx] at he
  cases he

/-- A scope of a heap in balance can be left. -/
theorem dropLifetime_frees {ws : List Value} (hb : st.Balanced ws) (hi : inner.isRoot = false) :
    "finalize" ∉ (st.dropLifetime inner vs).failedIn := by
  rw [dropLifetime_failedIn]
  rintro ⟨e, he⟩
  obtain ⟨x, hx, -⟩ := (hb.freeCellsOf hi).finalize
  rw [hx] at he
  cases he

end Store

namespace State

variable {ws : List Value}

theorem access_balanced {k : AccessKind} (hk : k ≠ .copy) (hb : s.store.Balanced ws)
    (h : (s.access k p).result = .ok (s', v)) : s'.store.Balanced (v :: ws) := by
  obtain ⟨r, -, hr, -, h⟩ := access_ok.1 h
  split at h
  · obtain ⟨st, hw, rfl⟩ := h
    have hu : s.store.Balanced (.undefined :: ws) := hb.congr fun a => by simp
    exact hu.exchange hr hw
  · rename_i hm
    subst h
    -- what is not moved stays where it is, and owns nothing
    have ho : v.containsOwner = false := by
      cases k with
      | copy => exact absurd rfl hk
      | move => simp [AccessKind.moves] at hm
      | inferred => simpa [AccessKind.moves] using hm
    exact hb.congr fun a => by simp [Value.owned_of_containsOwner ho]

theorem assign_balanced [HashOrder] (h : (s.assign p v).result = .ok (s', w))
    (hb : s.store.Balanced (v :: ws)) :
    s'.store.Balanced (w :: ws) := by
  obtain ⟨r, old, st, st', -, hr, hw, hd, rfl, rfl⟩ := assign_ok.1 h
  exact (Store.dropValue_balanced hd (hb.exchange hr hw)).congr fun a => by simp

theorem bind_balanced {x : String} (h : (s.bind x l v).result = .ok (s', w))
    (hl : l.isRoot = false) (hb : s.store.Balanced (v :: ws)) : s'.store.Balanced (w :: ws) := by
  obtain ⟨rfl, rfl⟩ := bind_ok.1 h
  exact (hb.allocate hl).congr fun a => by simp

theorem box_balanced (h : (s.box l v).result = .ok (s', w)) (hb : s.store.Balanced (v :: ws)) :
    s'.store.Balanced (w :: ws) := by
  obtain ⟨rfl, rfl⟩ := box_ok.1 h
  exact hb.box l.global_isRoot

variable [HashOrder]

theorem branch_balanced (h : (s.branch v w t).result = .ok s')
    (hb : s.store.Balanced (v :: w :: ws)) : s'.store.Balanced ws := by
  obtain ⟨st, st', h₁, h₂, rfl⟩ := branch_ok.1 h
  exact Store.dropValue_balanced h₂ (Store.dropValue_balanced h₁ hb)

theorem discard_balanced (h : (s.discard v vs).result = .ok s') (hb : s.store.Balanced (v :: ws)) :
    s'.store.Balanced ws := by
  obtain ⟨st, hd, rfl⟩ := discard_ok.1 h
  exact Store.dropValue_balanced hd hb

theorem leave_balanced {frame : NameMap Binding} (h : (s.leave frame inner v).result = .ok (s', w))
    (hi : inner.isRoot = false) (hb : s.store.Balanced ws) : s'.store.Balanced ws := by
  obtain ⟨st, hd, rfl, -⟩ := leave_ok.1 h
  exact Store.dropLifetime_balanced hd hi hb

/-! What a rule gives up has been taken from the store first, so that it can be freed. -/

theorem assign_frees (hb : s.store.Balanced (v :: ws)) :
    "finalize" ∉ (s.assign p v).failedIn := by
  simp only [assign, Traced.mem_failedIn_bind, Traced.result_lift, Traced.failedIn_lift,
    Traced.failedIn_note, List.not_mem_nil, false_or]
  rintro ⟨r, -, old, hr, -, -, st, hw, h | ⟨st', -, h⟩⟩
  · exact Store.dropValue_frees (hb.exchange hr hw) h
  · cases h

theorem branch_frees (hb : s.store.Balanced (v :: w :: ws)) :
    "finalize" ∉ (s.branch v w t).failedIn := by
  simp only [branch, Traced.mem_failedIn_bind, Traced.failedIn_note, List.not_mem_nil, false_or]
  rintro ⟨-, -, h | ⟨st, hd, h | ⟨st', -, h⟩⟩⟩
  · exact Store.dropValue_frees hb h
  · exact Store.dropValue_frees (Store.dropValue_balanced hd hb) h
  · cases h

theorem discard_frees (hb : s.store.Balanced (v :: ws)) :
    "finalize" ∉ (s.discard v vs).failedIn := by
  simp only [discard, Traced.mem_failedIn_bind]
  rintro (h | ⟨st, -, h⟩)
  · exact Store.dropValue_frees hb h
  · cases h

theorem leave_frees {frame : NameMap Binding} (hb : s.store.Balanced ws)
    (hi : inner.isRoot = false) : "finalize" ∉ (s.leave frame inner v).failedIn := by
  simp only [leave, Traced.mem_failedIn_bind]
  rintro (h | ⟨st, -, h⟩)
  · exact Store.dropLifetime_frees hb hi h
  · cases h

omit [HashOrder] in
/-- An access gives nothing up. -/
theorem access_frees (k : AccessKind) : "finalize" ∉ (s.access k p).failedIn := by
  simp only [access, Traced.mem_failedIn_bind, Traced.failedIn_lift, List.not_mem_nil, false_or]
  rintro ⟨r, -, v, -, h⟩
  split at h
  · cases h
  · cases k with
    | copy => simp [Traced.mem_failedIn_bind] at h
    | move => simp [Traced.mem_failedIn_bind] at h
    | inferred => cases ho : v.containsOwner <;> simp [ho, Traced.mem_failedIn_bind] at h

end State

/-! ### Steps -/

theorem count_reverse_flatMap (ts : List Term) (a : Nat) :
    ((ts.reverse.flatMap Term.values).flatMap Value.owned).count a =
      ((ts.flatMap Term.values).flatMap Value.owned).count a := by
  induction ts with
  | nil => rfl
  | cons t ts ih =>
    simp only [List.reverse_cons, List.flatMap_append, List.flatMap_cons, List.flatMap_nil,
      List.append_nil, List.count_append, ih]
    omega

/-- The values of one operand among those of all of them. -/
theorem balanced_operand (us : List Term) {st : Store} {sp : Span} {o : Nat} {rest : List Term}
    {u : Term} :
    st.Balanced ((Term.ext sp o (us ++ u :: rest)).values ++ vs) ↔
      st.Balanced (u.values ++ (rest.reverse.flatMap Term.values ++
        us.reverse.flatMap Term.values ++ vs)) := by
  refine Store.Balanced.congr_iff fun a => ?_
  simp only [Term.values_ext, List.reverse_append, List.reverse_cons, List.flatMap_append,
    List.flatMap_cons, List.flatMap_nil, List.append_nil, List.count_append]
  omega

/-- The values of the first statement among those of all of them. -/
theorem balanced_statement {st : Store} {sp : Span} {u : Term} :
    st.Balanced ((Term.block sp inner (u :: ts)).values ++ vs) ↔
      st.Balanced (u.values ++ ((Term.block sp inner ts).values ++ vs)) := by
  refine Store.Balanced.congr_iff fun a => ?_
  simp only [Term.values_block, List.reverse_cons, List.flatMap_append, List.flatMap_cons,
    List.flatMap_nil, List.append_nil, List.count_append]
  omega

/-- The operands of a conditional, where its arms own nothing. -/
theorem balanced_compared {st : Store} {sp : Span} {o : Nat} {lhs rhs onTrue onFalse : Term}
    (hv : lhs.value? = some v) (hw : rhs.value? = some w)
    (hT : onTrue.values.flatMap Value.owned = []) (hF : onFalse.values.flatMap Value.owned = [])
    (h : st.Balanced ((Term.ext sp o [lhs, rhs, onTrue, onFalse]).values ++ vs)) :
    st.Balanced (v :: w :: vs) := by
  refine h.congr fun a => ?_
  simp only [Term.values_ext, List.reverse_cons, List.reverse_nil, List.nil_append,
    List.cons_append, List.flatMap_cons, List.flatMap_nil, List.flatMap_append, List.append_nil,
    List.count_append, Term.values_of_value? hv, Term.values_of_value? hw, hT, hF]
  omega

namespace Machine

variable [HashOrder]

/-- What is left of a term keeps the balance, and declares nothing new. -/
structure Kept (m : Machine) (t : Term) (vs : List Value) (s' : State) (t' : Term) : Prop where
  balanced : s'.store.Balanced (t'.values ++ vs)
  linear : t'.Linear m.extensions
  declares : ∀ x ∈ t'.declares, x ∈ t.declares

omit [HashOrder] in
theorem Kept.of_value (h : s'.store.Balanced (v :: vs)) : m.Kept t vs s' (.ofValue v) where
  balanced := h
  linear := by simp only [Term.ofValue, Term.Linear]
  declares := nofun

/-- A step on the term keeps the balance of the heap with the values in the term and any others. In
the heap itself no variable may be declared. -/
def Keeps (m : Machine) (t : Term) : Prop :=
  ∀ {l s s' t' vs}, t.Linear m.extensions → (l.isRoot = true → t.declares = []) →
    s.store.Balanced (t.values ++ vs) → (m.smallStep s l t).result = .ok (s', t') →
    m.Kept t vs s' t'

theorem keeps_block {sp : Span} (ih : ∀ t ∈ ts, m.Keeps t) : m.Keeps (.block sp inner ts) := by
  intro l s s' t' vs ⟨hi, hts⟩ _ hb h
  have hts := Term.allLinear_iff.1 hts
  cases ts with
  | nil =>
    simp only [smallStep, offer_none] at h
    obtain ⟨w, hr, rfl⟩ := reduct_ok.1 h
    obtain ⟨-, -, -, rfl⟩ := State.leave_ok.1 hr
    exact .of_value ((State.leave_balanced hr hi hb).congr fun a => by simp [Term.values_block])
  | cons u us =>
    rw [balanced_statement] at hb
    have hrest : (Term.block sp inner us).Linear m.extensions :=
      ⟨hi, Term.allLinear_iff.2 fun t ht => hts t (List.mem_cons_of_mem _ ht)⟩
    cases hu : u.value? with
    | some v =>
      -- the last value leaves the block, any other one is dropped
      rw [Term.values_of_value? hu] at hb
      simp only [smallStep, offer_none, hu] at h
      split at h
      · obtain ⟨w, hr, rfl⟩ := reduct_ok.1 h
        rename_i he
        cases us with
        | cons => cases he
        | nil =>
          obtain ⟨-, -, -, rfl⟩ := State.leave_ok.1 hr
          exact .of_value (State.leave_balanced hr hi hb)
      · obtain ⟨s₁, hd, e⟩ := Traced.result_bind_ok.1 h
        cases e
        exact ⟨State.discard_balanced hd hb, hrest, fun _ hx => absurd hx List.not_mem_nil⟩
    | none =>
      have hC : blockFrom sp inner us u = .block sp inner (u :: us) := by simp [blockFrom, hu]
      rw [← hC] at h
      obtain ⟨u', h₁, rfl⟩ := (context_block m l sp inner us).step_ok hu h
      have k := ih u List.mem_cons_self (hts u List.mem_cons_self)
        (fun hr => absurd hr (by simp [hi])) hb h₁
      -- a statement that comes to unit is cut off, and unit owns nothing
      by_cases hd : u'.value? = some .unit
      · simp only [blockFrom, hd, if_true]
        refine ⟨k.balanced.congr fun a => ?_, hrest, fun _ hx => absurd hx List.not_mem_nil⟩
        rw [Term.values_of_value? hd]
        simp
      · simp only [blockFrom, hd, if_false]
        exact ⟨balanced_statement.2 k.balanced, ⟨hi, k.linear, hrest.2⟩,
          fun _ hx => absurd hx List.not_mem_nil⟩

/-- A step in one of the operands. -/
theorem keeps_operand (us : List Term) {sp : Span} {o : Nat} {rest : List Term} {u u' : Term}
    (hk : m.Keeps u)
    (ht : (Term.ext sp o (us ++ u :: rest)).Linear m.extensions)
    (hl : l.isRoot = true → (Term.ext sp o (us ++ u :: rest)).declares = [])
    (hb : s.store.Balanced ((Term.ext sp o (us ++ u :: rest)).values ++ vs))
    (h : (m.smallStep s l u).result = .ok (s', u'))
    (harms : ∀ equal, formOf? m.extensions o = some (.conditional equal) →
      ∀ t ∈ (us ++ u' :: rest).drop 2, t.values.flatMap Value.owned = []) :
    m.Kept (.ext sp o (us ++ u :: rest)) vs s' (.ext sp o (us ++ u' :: rest)) := by
  have hts := Term.allLinear_iff.1 ht.1
  have hd : ∀ x, x ∈ u.declares → x ∈ Term.allDeclares (us ++ u :: rest) :=
    fun x hx => Term.mem_allDeclares.2 ⟨u, by simp, hx⟩
  -- in the heap the operand declares nothing, since the whole term does not
  have hu : l.isRoot = true → u.declares = [] := by
    intro hr
    refine List.eq_nil_iff_forall_not_mem.2 fun x hx => ?_
    have hx := hd x hx
    rw [show Term.allDeclares (us ++ u :: rest) = [] from hl hr] at hx
    cases hx
  have k := hk (hts u (by simp)) hu ((balanced_operand _).1 hb) h
  refine ⟨(balanced_operand us).2 k.balanced, ⟨Term.allLinear_iff.2 fun t ht => ?_, harms⟩,
    fun x hx => ?_⟩
  · simp only [List.mem_append, List.mem_cons] at ht
    rcases ht with ht | rfl | ht
    · exact hts t (by simp [ht])
    · exact k.linear
    · exact hts t (by simp [ht])
  · obtain ⟨t, ht, hxt⟩ := Term.mem_allDeclares.1 hx
    simp only [List.mem_append, List.mem_cons] at ht
    rcases ht with ht | rfl | ht
    · exact Term.mem_allDeclares.2 ⟨t, by simp [ht], hxt⟩
    · exact hd x (k.declares x hxt)
    · exact Term.mem_allDeclares.2 ⟨t, by simp [ht], hxt⟩

theorem keeps_tuple {sp : Span} {o : Nat} (hf : formOf? m.extensions o = some .tuple)
    (ih : ∀ t ∈ ts, m.Keeps t) : m.Keeps (.ext sp o ts) := by
  intro l s s' t' vs ht hl hb h
  rcases operands_cases ts with ⟨ws, hws⟩ | ⟨us, u, rest, rfl, hus, hu⟩
  · rw [smallStep_tupled s l sp hf hws] at h
    obtain ⟨w, hr, rfl⟩ := reduct_ok.1 h
    obtain ⟨rfl, rfl⟩ := State.tuple_ok.1 hr
    rw [Term.values_ext] at hb
    refine .of_value (hb.congr fun a => ?_)
    rw [← Term.values_of_operands hws, List.flatMap_cons, Value.owned_compound, List.flatMap_append,
      List.count_append, List.count_append, count_reverse_flatMap]
  · obtain ⟨u', h₁, rfl⟩ := (context_operand m l sp hf hus rest).step_ok hu h
    exact keeps_operand us (ih u (by simp)) ht hl hb h₁ fun equal he => by rw [hf] at he; cases he

theorem keeps_conditional {sp : Span} {o : Nat} {equal : Bool}
    (hf : formOf? m.extensions o = some (.conditional equal)) {lhs rhs onTrue onFalse : Term}
    (hlhs : m.Keeps lhs) (hrhs : m.Keeps rhs) :
    m.Keeps (.ext sp o [lhs, rhs, onTrue, onFalse]) := by
  intro l s s' t' vs ht hl hb h
  have harms := ht.2 equal hf
  cases hv : lhs.value? with
  | none =>
    obtain ⟨u', h₁, rfl⟩ := (context_lhs m l sp hf rhs onTrue onFalse).step_ok hv h
    exact keeps_operand [] hlhs ht hl hb h₁ fun _ _ => harms
  | some left =>
    cases hw : rhs.value? with
    | none =>
      obtain ⟨u', h₁, rfl⟩ := (context_rhs m l sp hf hv onTrue onFalse).step_ok hw h
      exact keeps_operand [lhs] hrhs ht hl hb h₁ fun _ _ => harms
    | some right =>
      rw [smallStep_branch m s l sp hf hv hw onTrue onFalse, Traced.map_eq_ok] at h
      obtain ⟨s₁, hr, e⟩ := h
      cases e
      have hT : onTrue.values.flatMap Value.owned = [] := harms onTrue (by simp)
      have hF : onFalse.values.flatMap Value.owned = [] := harms onFalse (by simp)
      have hts := Term.allLinear_iff.1 ht.1
      have hc : s.store.Balanced (left :: right :: vs) := balanced_compared hv hw hT hF hb
      refine ⟨?_, ?_, fun x hx => Term.mem_allDeclares.2 ⟨_, ?_, hx⟩⟩
      · refine (State.branch_balanced hr hc).congr fun a => ?_
        split <;> simp [hT, hF]
      · split
        · exact hts onTrue (by simp)
        · exact hts onFalse (by simp)
      · split <;> simp

/-- **One step keeps the balance.** -/
theorem smallStep_balanced (t : Term) : m.Keeps t := by
  induction t with
  | value sp v =>
    intro l s s' t' vs ht _ hb h
    simp only [smallStep, offer_none] at h
    cases h
    exact ⟨hb, ht, fun _ h => h⟩
  | access sp k p =>
    intro l s s' t' vs ht _ hb h
    simp only [smallStep, offer_none] at h
    obtain ⟨v, hr, rfl⟩ := reduct_ok.1 h
    exact .of_value (State.access_balanced ht hb hr)
  | borrow sp mutable p =>
    intro l s s' t' vs _ _ hb h
    simp only [smallStep, offer_none] at h
    obtain ⟨v, hr, e⟩ := Traced.result_bind_ok.1 h
    obtain ⟨r, -, rfl⟩ := State.borrow_ok.1 hr
    cases e
    exact .of_value (hb.congr fun a => by simp [Term.values, Term.pushValues])
  | box sp c ih =>
    intro l s s' t' vs ht hl hb h
    cases hc : c.value? with
    | some v =>
      simp only [smallStep, offer_none, hc] at h
      obtain ⟨w, hr, rfl⟩ := reduct_ok.1 h
      rw [show (Term.box sp c).values = [v] from Term.values_of_value? (t := c) hc] at hb
      exact .of_value (State.box_balanced hr hb)
    | none =>
      obtain ⟨c', h₁, rfl⟩ := (context_box m l sp).step_ok hc h
      have k := ih ht hl hb h₁
      exact ⟨k.balanced, k.linear, k.declares⟩
  | letMut sp x xs c ih =>
    intro l s s' t' vs ht hl hb h
    -- the term declares a variable, so it is not evaluated in the heap
    have hroot : l.isRoot = false := by
      cases hr : l.isRoot with
      | false => rfl
      | true => cases hl hr
    cases hc : c.value? with
    | some v =>
      simp only [smallStep, offer_none, hc] at h
      obtain ⟨w, hr, rfl⟩ := reduct_ok.1 h
      rw [show (Term.letMut sp x xs c).values = [v] from Term.values_of_value? (t := c) hc] at hb
      exact .of_value (State.bind_balanced hr hroot hb)
    | none =>
      obtain ⟨c', h₁, rfl⟩ := (context_letMut m l sp x xs).step_ok hc h
      have k := ih ht (fun hr => absurd hr (by simp [hroot])) hb h₁
      refine ⟨k.balanced, k.linear, fun y hy => ?_⟩
      rcases List.mem_cons.1 hy with rfl | hy
      · exact List.mem_cons_self
      · exact List.mem_cons_of_mem _ (k.declares y hy)
  | assign sp p c ih =>
    intro l s s' t' vs ht hl hb h
    cases hc : c.value? with
    | some v =>
      simp only [smallStep, offer_none, hc] at h
      obtain ⟨w, hr, rfl⟩ := reduct_ok.1 h
      rw [show (Term.assign sp p c).values = [v] from Term.values_of_value? (t := c) hc] at hb
      exact .of_value (State.assign_balanced hr hb)
    | none =>
      obtain ⟨c', h₁, rfl⟩ := (context_assign m l sp p).step_ok hc h
      have k := ih ht hl hb h₁
      exact ⟨k.balanced, k.linear, k.declares⟩
  | block sp inner ts ih => exact keeps_block ih
  | ext sp o ts ih =>
    cases exists_use m.extensions o ts with
    | tuple hf => exact keeps_tuple hf ih
    | conditional hf => exact keeps_conditional hf (ih _ (by simp)) (ih _ (by simp))
    | stuck ht hc =>
      intro l s s' t' vs _ _ _ h
      rw [smallStep_stuck s l sp ht hc] at h
      cases h

/-- A step on the term does not fail inside `finalize`. -/
def Frees (m : Machine) (t : Term) : Prop :=
  ∀ {l s vs}, t.Linear m.extensions → s.store.Balanced (t.values ++ vs) →
    "finalize" ∉ (m.smallStep s l t).failedIn

omit [HashOrder] in
theorem reduct_frees {x : Run (State × Value)} (h : "finalize" ∉ x.failedIn) :
    "finalize" ∉ x.reduct.failedIn := by
  rw [Run.reduct, Traced.mem_failedIn_bind]
  rintro (hx | ⟨y, -, hy⟩)
  · exact h hx
  · cases hy

theorem frees_block {sp : Span} (ih : ∀ t ∈ ts, m.Frees t) : m.Frees (.block sp inner ts) := by
  intro l s vs ⟨hi, hts⟩ hb
  have hts := Term.allLinear_iff.1 hts
  cases ts with
  | nil =>
    simp only [smallStep, offer_none]
    exact reduct_frees (State.leave_frees hb hi)
  | cons u us =>
    rw [balanced_statement] at hb
    cases hu : u.value? with
    | some v =>
      rw [Term.values_of_value? hu] at hb
      simp only [smallStep, offer_none, hu]
      split
      · exact reduct_frees (State.leave_frees hb hi)
      · rw [Traced.mem_failedIn_bind]
        rintro (h | ⟨s₁, -, h⟩)
        · exact State.discard_frees hb h
        · cases h
    | none =>
      have hC : blockFrom sp inner us u = .block sp inner (u :: us) := by simp [blockFrom, hu]
      rw [← hC, (context_block m l sp inner us).failedIn s hu]
      exact ih u List.mem_cons_self (hts u List.mem_cons_self) hb

theorem frees_tuple {sp : Span} {o : Nat} (hf : formOf? m.extensions o = some .tuple)
    (ih : ∀ t ∈ ts, m.Frees t) : m.Frees (.ext sp o ts) := by
  intro l s vs ht hb
  rcases operands_cases ts with ⟨ws, hws⟩ | ⟨us, u, rest, rfl, hus, hu⟩
  · -- operands that are values are put together, and none of them is given up
    rw [smallStep_tupled s l sp hf hws]
    exact reduct_frees (by simp [State.tuple, Traced.mem_failedIn_bind])
  · rw [(context_operand m l sp hf hus rest).failedIn s hu]
    exact ih u (by simp) (Term.allLinear_iff.1 ht.1 u (by simp)) ((balanced_operand us).1 hb)

theorem frees_conditional {sp : Span} {o : Nat} {equal : Bool}
    (hf : formOf? m.extensions o = some (.conditional equal)) {lhs rhs onTrue onFalse : Term}
    (hlhs : m.Frees lhs) (hrhs : m.Frees rhs) :
    m.Frees (.ext sp o [lhs, rhs, onTrue, onFalse]) := by
  intro l s vs ht hb
  have hts := Term.allLinear_iff.1 ht.1
  cases hv : lhs.value? with
  | none =>
    rw [(context_lhs m l sp hf rhs onTrue onFalse).failedIn s hv]
    exact hlhs (hts lhs (by simp)) ((balanced_operand []).1 hb)
  | some left =>
    cases hw : rhs.value? with
    | none =>
      rw [(context_rhs m l sp hf hv onTrue onFalse).failedIn s hw]
      exact hrhs (hts rhs (by simp)) ((balanced_operand [lhs]).1 hb)
    | some right =>
      have harms := ht.2 equal hf
      have hb := balanced_compared hv hw (harms onTrue (by simp)) (harms onFalse (by simp)) hb
      rw [smallStep_conditional s l sp hf]
      simp only [stepConditional, hv, hw, Traced.mem_failedIn_bind]
      rintro (h | ⟨s₁, -, h⟩)
      · exact State.branch_frees hb h
      · cases h

/-- **One step does not fail inside `finalize`**: what it gives up can be freed. -/
theorem smallStep_frees (t : Term) : m.Frees t := by
  induction t with
  | value sp v =>
    intro l s vs _ _
    simp only [smallStep, offer_none]
    exact List.not_mem_nil
  | access sp k p =>
    intro l s vs _ _
    simp only [smallStep, offer_none]
    exact reduct_frees (State.access_frees k)
  | borrow sp mutable p =>
    intro l s vs _ _
    simp [smallStep, State.borrow, Traced.mem_failedIn_bind]
  | box sp c ih =>
    intro l s vs ht hb
    cases hc : c.value? with
    | some v =>
      simp only [smallStep, offer_none, hc]
      exact reduct_frees (by simp [State.box, Traced.mem_failedIn_bind])
    | none =>
      rw [(context_box m l sp).failedIn s hc]
      exact ih ht hb
  | letMut sp x xs c ih =>
    intro l s vs ht hb
    cases hc : c.value? with
    | some v =>
      simp only [smallStep, offer_none, hc]
      exact reduct_frees (by simp [State.bind, Traced.mem_failedIn_bind])
    | none =>
      rw [(context_letMut m l sp x xs).failedIn s hc]
      exact ih ht hb
  | assign sp p c ih =>
    intro l s vs ht hb
    cases hc : c.value? with
    | some v =>
      rw [show (Term.assign sp p c).values = [v] from Term.values_of_value? (t := c) hc] at hb
      simp only [smallStep, offer_none, hc]
      exact reduct_frees (State.assign_frees hb)
    | none =>
      rw [(context_assign m l sp p).failedIn s hc]
      exact ih ht hb
  | block sp inner ts ih => exact frees_block ih
  | ext sp o ts ih =>
    cases exists_use m.extensions o ts with
    | tuple hf => exact frees_tuple hf ih
    | conditional hf => exact frees_conditional hf (ih _ (by simp)) (ih _ (by simp))
    | stuck ht hc =>
      intro l s vs _ _
      rw [smallStep_stuck s l sp ht hc]
      exact List.not_mem_nil

end Machine

/-! ### Runs -/

/-- Steps lead from one state and term to another. -/
inductive Reaches [HashOrder] (m : Machine) (l : Lifetime) (s : State) (t : Term) :
    State → Term → Prop where
  | refl : Reaches m l s t s t
  | step {s₁ t₁ s₂ t₂} : Reaches m l s t s₁ t₁ → (m.reduce s₁ l t₁).result = .ok (s₂, t₂) →
      Reaches m l s t s₂ t₂

theorem reaches_kept [HashOrder] (hm : m.strategy = .smallStep) (ht : t.Linear m.extensions)
    (hl : l.isRoot = true → t.declares = []) (hb : s.store.Balanced (t.values ++ vs))
    (h : Reaches m l s t s' t') : m.Kept t vs s' t' := by
  induction h with
  | refl => exact ⟨hb, ht, fun _ h => h⟩
  | @step s₁ t₁ s₂ t₂ _ h k =>
    simp only [Machine.reduce, hm] at h
    have hl₁ : l.isRoot = true → t₁.declares = [] := fun hr =>
      List.eq_nil_iff_forall_not_mem.2 fun x hx => by
        have := k.declares x hx
        rw [hl hr] at this
        cases this
    have k' := Machine.smallStep_balanced t₁ k.linear hl₁ k.balanced h
    exact ⟨k'.balanced, k'.linear, fun x hx => k.declares x (k'.declares x hx)⟩

/-- From the empty store, a term that owns nothing has single ownership. -/
theorem Store.owned_empty (h : vs.flatMap Value.owned = []) : Store.Owned {} vs := by
  refine owned_iff.2 fun a => ?_
  rw [owners_eq, h]
  rfl

/-- **Single ownership is kept**, by a step and by every run of steps, whatever the checker says.
What a step gives up can be freed, so that no step fails inside `finalize`: no cell is freed twice,
and no address that holds none. The term copies no owner, its blocks are scopes and the arms of its
conditionals own nothing; it may declare variables unless it is evaluated in the heap itself. -/
theorem owned_reduce [HashOrder] (c : Bool) (es : List Extension) (s : State) (l : Lifetime)
    (t : Term) (ht : t.Linear es) (hl : l.isRoot = true → t.declares = [])
    (ho : s.store.Owned t.values) :
    (∀ s' t', (Machine.reduce ⟨.smallStep, c, es⟩ s l t).result = .ok (s', t') →
      s'.store.Owned t'.values) ∧
    "finalize" ∉ (Machine.reduce ⟨.smallStep, c, es⟩ s l t).failedIn ∧
    ∀ s' t', Reaches ⟨.smallStep, c, es⟩ l s t s' t' → s'.store.Owned t'.values ∧
      "finalize" ∉ (Machine.reduce ⟨.smallStep, c, es⟩ s' l t').failedIn := by
  have hb : s.store.Balanced (t.values ++ []) := by
    rw [List.append_nil]
    exact Store.owned_iff.1 ho
  have run : ∀ s' t', Reaches ⟨.smallStep, c, es⟩ l s t s' t' → s'.store.Owned t'.values ∧
      "finalize" ∉ (Machine.reduce ⟨.smallStep, c, es⟩ s' l t').failedIn := by
    intro s' t' h
    have k := reaches_kept rfl ht hl hb h
    constructor
    · rw [Store.owned_iff, ← List.append_nil t'.values]
      exact k.balanced
    · show "finalize" ∉ (Machine.smallStep _ s' l t').failedIn
      exact Machine.smallStep_frees t' k.linear k.balanced
  exact ⟨fun s' t' h => (run s' t' (.step .refl h)).1, (run s t .refl).2, run⟩

/-- `{ let mut x = box 7; x = box 8; }` -/
def reassignedBox : Term :=
  .block {} (.inside 2 (.inside 1 (.root 0)))
    [.letMut {} "x" {} (.box {} (.value {} (.int 7))),
      .assign {} (.var "x") (.box {} (.value {} (.int 8)))]

theorem linear_reassignedBox (es : List Extension) : reassignedBox.Linear es := by
  simp [reassignedBox, Term.Linear, Term.AllLinear, Lifetime.isRoot]

theorem owned_reduce_reassignedBox :
    reassignedBox.Linear Extension.all ∧
    ((Lifetime.inside 1 (.root 0)).isRoot = true → reassignedBox.declares = []) ∧
    Store.Owned {} reassignedBox.values ∧
    (Machine.evaluate ⟨.smallStep, true, Extension.all⟩ {} (.inside 1 (.root 0))
      reassignedBox).result = .ok (⟨.empty, ⟨#[none, none, none]⟩⟩, .unit) ∧
    ∀ s' t',
      Reaches ⟨.smallStep, true, Extension.all⟩ (.inside 1 (.root 0)) {} reassignedBox s' t' →
        s'.store.Owned t'.values ∧
          "finalize" ∉ (Machine.reduce ⟨.smallStep, true, Extension.all⟩ s' (.inside 1 (.root 0))
            t').failedIn := by
  refine ⟨linear_reassignedBox _, fun _ => rfl, Store.owned_empty rfl, by decide +kernel, ?_⟩
  exact (owned_reduce true Extension.all {} (.inside 1 (.root 0)) reassignedBox
    (linear_reassignedBox _) (fun _ => rfl) (Store.owned_empty rfl)).2.2

/-- A box that has been copied has two owners, and is freed twice when their scope is left. -/
example :
    let copied : Term := .block {} (.inside 2 (.inside 1 (.root 0)))
      [.letMut {} "x" {} (.box {} (.value {} (.int 7))),
        .letMut {} "y" {} (.access {} .copy (.var "x"))]
    "finalize" ∈ (Machine.evaluate ⟨.smallStep, false, Extension.all⟩ {} (.inside 1 (.root 0))
      copied).failedIn := by
  decide +kernel

end Ownership
