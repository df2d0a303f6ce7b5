import Ownership.Proofs.Invariants
import Ownership.Proofs.Owners

/-!
# Termination

No step takes away from a term more than it leaves, so reductions come to an end whatever is in the
store. The size of a term bounds the steps that can be made from it (`Steps.size`), and the cells
that are live bound the cells that a drop can free, even where boxes own each other in a circle
(`Store.release_of_le`). The bounds that the machine works with are therefore never the reason for
its stopping.

* `reduction_terminates`: **every run comes to a value or to a fault**, within as many steps as the
  term has size.
-/

namespace Ownership

variable {m : Machine} {l : Lifetime} {s s' : State} {t t' : Term} {n : Nat}

namespace Machine

/-- No fault of a rule says that the steps have run out. -/
theorem finishing : Law (· ≠ .unfinished) (fun _ => True) fun _ _ _ => True where
  fault := by
    rintro e he rfl
    exact he
  missing {_ s _ r} _ _ := by
    rw [Store.missing]
    split <;> simp
  mono _ _ := trivial
  borrow _ _ _ := trivial
  read _ _ := trivial
  put _ _ _ := trivial
  free _ _ _ := trivial
  box _ _ _ := trivial
  declare _ _ := trivial
  enter _ _ := trivial
  leave _ _ := trivial

variable [HashOrder]

/-- **A run of `n` steps**, each on a term that is not a value. -/
inductive Steps (m : Machine) (l : Lifetime) : Nat → State → Term → State → Term → Prop where
  | none (s : State) (t : Term) : Steps m l 0 s t s t
  | step {n : Nat} {s s₁ s' : State} {t t₁ t' : Term} : t.value? = none →
      (m.reduce s l t).result = .ok (s₁, t₁) → Steps m l n s₁ t₁ s' t' →
      Steps m l (n + 1) s t s' t'

/-- A run is not longer than what its term loses. -/
theorem Steps.size (h : m.Steps l n s t s' t') : n + t'.size ≤ t.size := by
  induction h with
  | none => simp
  | step hv hr _ ih =>
    have hlt := reduce_size hv hr
    omega

/-- Where a run stops: at a value, or at a term that the machine fails to reduce. -/
def Final (m : Machine) (l : Lifetime) (s : State) (t : Term) : Prop :=
  t.isValue = true ∨ ∃ e, (m.reduce s l t).result = .error e

/-- A run can go on until it stops. -/
theorem exists_final (m : Machine) (s : State) (l : Lifetime) (t : Term) :
    ∃ n s' t', m.Steps l n s t s' t' ∧ m.Final l s' t' := by
  induction hn : t.size using Nat.strongRecOn generalizing s t with
  | ind size ih =>
    cases hv : t.value? with
    | some v => exact ⟨0, s, t, .none s t, .inl (by rw [Term.isValue, hv]; rfl)⟩
    | none =>
      cases hr : (m.reduce s l t).result with
      | error e => exact ⟨0, s, t, .none s t, .inr ⟨e, hr⟩⟩
      | ok x =>
        have hlt : x.2.size < size := hn ▸ reduce_size hv hr
        obtain ⟨n, s', t', hs, hf⟩ := ih x.2.size hlt x.1 x.2 rfl
        exact ⟨n + 1, s', t', .step hv hr hs, hf⟩

/-- More steps than the term has size make no difference. -/
theorem evaluateFrom_of_le {k i j : Nat} (hn : t.size ≤ n) (hk : t.size ≤ k) :
    (m.evaluateFrom l n i s t).result = (m.evaluateFrom l k j s t).result := by
  induction n generalizing k i j s t with
  | zero =>
    cases hv : t.value? with
    | some v => rw [evaluateFrom_value hv, evaluateFrom_value hv]
    | none =>
      have hpos := Term.size_pos hv
      omega
  | succ n ih =>
    cases hv : t.value? with
    | some v => rw [evaluateFrom_value hv, evaluateFrom_value hv]
    | none =>
      have hpos := Term.size_pos hv
      obtain ⟨k, rfl⟩ : ∃ j, k = j + 1 := ⟨k - 1, by omega⟩
      rw [evaluateFrom_succ hv, evaluateFrom_succ hv, checkedStep_result, checkedStep_result]
      cases hr : (m.reduce s l t).result with
      | error e => rfl
      | ok x =>
        have hlt : x.2.size < t.size := reduce_size hv hr
        have rest := ih (i := i + 1) (j := j + 1) (s := x.1) (t := x.2) (k := k)
          (by omega) (by omega)
        simp only [Traced.ok_bind]
        split
        · cases x.1.store.checkHeap x.2.values with
          | error e => rfl
          | ok u => exact rest
        · exact rest

/-- The loop that evaluates a part does not run out of steps. -/
theorem eval_finishes (hn : t.size ≤ n) : (m.eval l n s t).result ≠ .error .unfinished := by
  induction n generalizing s t with
  | zero =>
    cases hv : t.value? with
    | some v =>
      rw [eval_value hv]
      exact nofun
    | none =>
      have hpos := Term.size_pos hv
      omega
  | succ n ih =>
    cases hv : t.value? with
    | some v =>
      rw [eval_value hv]
      exact nofun
    | none =>
      have held : Held (fun _ _ _ => True) [] s (t.references ++ []) := trivial
      have step := finishing.reduce (m := m) (l := l) held
      rw [eval_succ hv]
      cases hr : (m.reduce s l t).result with
      | error e => exact fun h => step.of_error hr (by cases h; rfl)
      | ok x =>
        have hlt : x.2.size < t.size := reduce_size hv hr
        exact ih (by omega)

theorem evaluate_finishes (m : Machine) (s : State) (l : Lifetime) (t : Term) :
    (m.evaluate s l t).result ≠ .error .unfinished := by
  intro h
  have held : Held (fun _ _ _ => True) [] s (t.references ++ []) := trivial
  exact (finishing.evaluateFrom (Nat.le_refl _) held).of_error h rfl

end Machine

namespace Store

variable {st : Store} {work : List Nat}

/-- A drop that may free more cells than are live frees the same. -/
theorem release_succ (hn : st.liveCount ≤ n) : st.release (n + 1) work = st.release n work := by
  induction n generalizing st work with
  | zero =>
    cases work with
    | nil => rfl
    | cons a work =>
      -- no cell is live, so there is none at `a`
      cases hc : st.cell a with
      | error e =>
        simp only [release, hc, Traced.error_bind, (cell_error.1 hc).2]
      | ok c =>
        have := Balanced.liveCount_free (cell_ok.1 hc)
        omega
  | succ n ih =>
    cases work with
    | nil => rfl
    | cons a work =>
      simp only [release]
      cases hc : st.cell a with
      | error e => rfl
      | ok c =>
        have := Balanced.liveCount_free (cell_ok.1 hc)
        simp only [Traced.ok_bind]
        rw [← ih (by omega)]

theorem release_of_le (hn : st.liveCount ≤ n) (work : List Nat) :
    st.release n work = st.release st.liveCount work := by
  obtain ⟨d, rfl⟩ := Nat.exists_eq_add_of_le hn
  induction d with
  | zero => rfl
  | succ d ih =>
    rw [← Nat.add_assoc, release_succ (Nat.le_add_right _ _), ih (Nat.le_add_right _ _)]

end Store

/-- **Reductions terminate**, whatever is in the store. Each step on a term that is not a value
makes it smaller, so a run is no longer than the term has size, and it can go on until it comes to
a value or to a fault; one big step gives a value at once. Evaluations do not run out of steps and
drops do not run out of cells to free, so the bounds on their loops decide nothing; nor does the
loop that evaluates a part of a big step, which one round brings to its end. -/
theorem reduction_terminates [HashOrder] (m : Machine) (s : State) (l : Lifetime) (t : Term) :
    (∀ s' t', t.value? = none → (m.reduce s l t).result = .ok (s', t') → t'.size < t.size) ∧
    (∀ n s' t', m.Steps l n s t s' t' → n + t'.size ≤ t.size) ∧
    (∃ n s' t', m.Steps l n s t s' t' ∧ m.Final l s' t') ∧
    (m.strategy = .bigStep →
      ∀ s' t', (m.reduce s l t).result = .ok (s', t') → t'.isValue = true) ∧
    (m.strategy = .bigStep → ∀ n, m.eval l (n + 1) s t = (m.bigStep s l t).settled) ∧
    (∀ n, t.size ≤ n → (m.eval l n s t).result ≠ .error .unfinished) ∧
    (m.evaluate s l t).result ≠ .error .unfinished ∧
    (∀ n i, t.size ≤ n → (m.evaluateFrom l n i s t).result = (m.evaluate s l t).result) ∧
    ∀ (st : Store) n work, st.liveCount ≤ n →
      st.release n work = st.release st.liveCount work := by
  refine ⟨fun s' t' hv h => Machine.reduce_size hv h, fun n s' t' h => h.size, m.exists_final s l t,
    fun hm s' t' h => Machine.reduce_bigStep hm h, fun hm n => Machine.eval_bigStep hm s l t n,
    fun n hn => Machine.eval_finishes hn, m.evaluate_finishes s l t, fun n i hn => ?_,
    fun st n work hn => Store.release_of_le hn work⟩
  exact Machine.evaluateFrom_of_le hn (Nat.le_refl _)

/-- `x` owns a box that also owns itself. -/
def selfOwner : State where
  frame := .insert .empty "x" ⟨.borrowed 0, .inside 1 (.root 0)⟩
  store := ⟨#[some ⟨.inside 1 (.root 0), .ref (.owned 1)⟩, some ⟨.root 0, .ref (.owned 1)⟩]⟩

/-- `{ let mut y = 1; x = 5; }` -/
def overwriting : Term :=
  .block {} (.inside 2 (.inside 1 (.root 0))) [.letMut {} "y" {} (.value {} (.int 1)),
    .assign {} (.var "x") (.value {} (.int 5))]

/-- The box that owns itself cannot be freed twice, so the run stops after one step. -/
theorem reduction_terminates_selfOwner :
    (∃ s' t', (Machine.reduce ⟨.smallStep, false, Extension.all⟩ selfOwner (.inside 1 (.root 0))
        overwriting).result = .ok (s', t') ∧ t'.size < overwriting.size) ∧
    (∃ n s' t', Machine.Steps ⟨.smallStep, false, Extension.all⟩ (.inside 1 (.root 0)) n selfOwner
        overwriting s' t' ∧ n + t'.size ≤ overwriting.size ∧
      Machine.Final ⟨.smallStep, false, Extension.all⟩ (.inside 1 (.root 0)) s' t') ∧
    (Machine.evaluateFrom ⟨.smallStep, false, Extension.all⟩ (.inside 1 (.root 0)) 9 0 selfOwner
      overwriting).result = .error (.danglingReference 1) ∧
    selfOwner.store.release 9 [1] = .error (.danglingReference 1) ∧
    ∃ s' t', (Machine.reduce ⟨.bigStep, false, Extension.all⟩ selfOwner (.inside 1 (.root 0))
        (.box {} (.value {} (.int 1)))).result = .ok (s', t') ∧ t'.isValue = true ∧
      Machine.eval ⟨.bigStep, false, Extension.all⟩ (.inside 1 (.root 0)) 5 selfOwner
          (.box {} (.value {} (.int 1))) =
        (Machine.bigStep ⟨.bigStep, false, Extension.all⟩ selfOwner (.inside 1 (.root 0))
          (.box {} (.value {} (.int 1)))).settled := by
  obtain ⟨shrinks, bounded, ⟨n, s', t', run, final⟩, -, -, -, -, enough, drops⟩ :=
    reduction_terminates ⟨.smallStep, false, Extension.all⟩ selfOwner (.inside 1 (.root 0))
      overwriting
  obtain ⟨-, -, -, whole, round, -⟩ :=
    reduction_terminates ⟨.bigStep, false, Extension.all⟩ selfOwner (.inside 1 (.root 0))
      (.box {} (.value {} (.int 1)))
  exact ⟨⟨_, _, rfl, shrinks _ _ rfl rfl⟩, ⟨n, s', t', run, bounded n s' t' run, final⟩,
    (enough 9 0 (by decide)).trans rfl, (drops selfOwner.store 9 [1] (by decide)).trans rfl,
    _, _, rfl, whole rfl _ _ rfl, round rfl 4⟩

end Ownership
