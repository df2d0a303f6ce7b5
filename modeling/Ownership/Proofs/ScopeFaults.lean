import Ownership.Proofs.Rules

/-!
# Faults of scope

A machine that does not know a variable, or that has no rule for a term, has lost track of the
program (`Fault.Scoping`). All other faults are about what is stored. Nothing in the store ever
fails with a fault of scope, and the rules do so only if a variable is not bound (`Yields`).

* `State.yields_access`, `State.yields_borrow`, `State.yields_assign`: **rules that look at a place
  know where it is, if its variable is bound.**
-/

namespace Ownership

/-- The machine does not know a variable, or has no rule for a term. -/
def Fault.Scoping : Fault → Prop
  | unboundVariable _ | stuck _ => True
  | _ => False

variable {α β : Type} {P P' : α → Prop} {Q : β → Prop} {r : Except Fault α}

/-- **The computation stays in scope.** What it gives satisfies `P`, and where it fails this is not
by a fault of scope. -/
def Yields (P : α → Prop) : Except Fault α → Prop
  | .ok a => P a
  | .error e => ¬ e.Scoping

namespace Yields

theorem mono (h : Yields P r) (hP : ∀ a, r = .ok a → P a → P' a) : Yields P' r := by
  cases r with
  | error e => exact h
  | ok a => exact hP a rfl h

theorem bind {f : α → Except Fault β} (h : Yields P r)
    (hf : ∀ a, r = .ok a → P a → Yields Q (f a)) : Yields Q (r >>= f) := by
  cases r with
  | error e => exact h
  | ok a => exact hf a rfl h

theorem map {f : α → β} (h : Yields P r) (hf : ∀ a, P a → Q (f a)) : Yields Q (r.map f) := by
  cases r with
  | error e => exact h
  | ok a => exact hf a h

theorem foldlM {f : α → β → Except Fault α} (hf : ∀ a b, Yields (fun _ => True) (f a b)) (a : α)
    (bs : List β) : Yields (fun _ => True) (bs.foldlM f a) := by
  induction bs generalizing a with
  | nil => trivial
  | cons b bs ih => exact (hf a b).bind fun a _ _ => ih a

theorem forM {f : α → Except Fault Unit} (hf : ∀ a, Yields (fun _ => True) (f a)) (as : List α) :
    Yields (fun _ => True) (as.forM f) := by
  induction as with
  | nil => trivial
  | cons a as ih => exact (hf a).bind fun _ _ _ => ih

end Yields

namespace Store

variable (st : Store)

theorem missing_not_scoping (a : Nat) : ¬ (st.missing a).Scoping := by
  rw [missing]
  split <;> exact id

theorem yields_cell (a : Nat) : Yields (fun _ => True) (st.cell a) := by
  rw [cell]
  split
  · trivial
  · exact st.missing_not_scoping a

theorem yields_read (r : Reference) : Yields (fun _ => True) (st.read r) := by
  refine (st.yields_cell r.address).bind fun c _ _ => ?_
  split
  · trivial
  · exact id

theorem yields_write (r : Reference) (v : Value) : Yields (fun _ => True) (st.write r v) := by
  refine (st.yields_cell r.address).bind fun c _ _ => ?_
  split
  · trivial
  · exact id

theorem yields_release (n : Nat) (work : List Nat) :
    Yields (fun _ => True) (st.release n work) := by
  induction n generalizing st work with
  | zero =>
    cases work with
    | nil => trivial
    | cons a work => exact st.missing_not_scoping a
  | succ n ih =>
    cases work with
    | nil => trivial
    | cons a work => exact (st.yields_cell a).bind fun c _ _ => (ih _ _).bind fun _ _ _ => trivial

variable [HashOrder]

theorem yields_checkAfterDrop (vs : List Value) :
    Yields (fun _ => True) (st.checkAfterDrop vs) := by
  have hrefs : Yields (fun _ => True) (st.checkReferences vs) := by
    refine Yields.forM (fun r => ?_) (st.held vs)
    exact (st.yields_cell r.address).bind fun _ _ _ => trivial
  refine hrefs.bind fun _ _ _ => ?_
  split
  · exact id
  · trivial

theorem yields_dropValue (v : Value) (vs : List Value) :
    Yields (fun _ => True) (st.dropValue v vs).result := by
  rw [dropValue_result]
  exact (st.yields_release _ _).bind fun x _ _ => (x.1.yields_checkAfterDrop vs).map fun _ h => h

theorem yields_dropLifetime (l : Lifetime) (vs : List Value) :
    Yields (fun _ => True) (st.dropLifetime l vs).result := by
  rw [dropLifetime_result]
  exact (yields_release _ _ _).bind fun x _ _ => (x.1.yields_checkAfterDrop vs).map fun _ h => h

end Store

namespace State

variable {s : State} {p : Place} {b : Binding} {l inner : Lifetime} {v w : Value}

theorem yields_follow (st : Store) (r : Reference) (a : Selector) :
    Yields (fun _ => True) (follow st r a) := by
  cases a with
  | index i => trivial
  | deref =>
    refine (st.yields_read r).bind fun v _ _ => ?_
    split
    · trivial
    · exact id
    · exact id

/-- **A place is found**, or not for want of its variable. -/
theorem yields_locate (hb : s.frame.get? p.name = some b) :
    Yields (fun _ => True) (s.locate p) := by
  rw [locate, hb]
  exact .foldlM (yields_follow s.store) b.location p.path

theorem yields_access (hb : s.frame.get? p.name = some b) (k : AccessKind) :
    Yields (fun x => x.1.frame = s.frame) (s.access k p).result := by
  rw [access_result]
  refine (yields_locate hb).bind fun r _ _ => (s.store.yields_read r).bind fun v _ _ => ?_
  split
  · exact id
  · split
    · exact (s.store.yields_write r .undefined).map fun _ _ => rfl
    · exact rfl

theorem yields_borrow (hb : s.frame.get? p.name = some b) :
    Yields (fun _ => True) (s.borrow p).result := by
  simp only [borrow, Traced.result_bind, Traced.result_lift, Traced.result_note, Traced.ok_bind]
  exact (yields_locate hb).bind fun _ _ _ => trivial

variable [HashOrder]

theorem yields_assign (hb : s.frame.get? p.name = some b) (v : Value) :
    Yields (fun x => x.1.frame = s.frame) (s.assign p v).result := by
  simp only [assign, Traced.result_bind, Traced.result_lift, Traced.result_note, Traced.ok_bind]
  exact (yields_locate hb).bind fun r _ _ => (s.store.yields_read r).bind fun old _ _ =>
    (s.store.yields_write r v).bind fun st _ _ => (st.yields_dropValue old []).bind fun _ _ _ => rfl

theorem yields_branch (t : Term) :
    Yields (fun s' => s'.frame = s.frame) (s.branch v w t).result := by
  simp only [branch, Traced.result_bind, Traced.result_note, Traced.ok_bind]
  exact (s.store.yields_dropValue v [w]).bind fun st _ _ =>
    (st.yields_dropValue w []).bind fun _ _ _ => rfl

theorem yields_discard (vs : List Value) :
    Yields (fun s' => s'.frame = s.frame) (s.discard v vs).result := by
  simp only [discard, Traced.result_bind]
  exact (s.store.yields_dropValue v vs).bind fun _ _ _ => rfl

theorem yields_leave (f : NameMap Binding) :
    Yields (fun x => x.1.frame = f) (s.leave f inner v).result := by
  simp only [leave, Traced.result_bind]
  exact (s.store.yields_dropLifetime inner [v]).bind fun _ _ _ => rfl

end State

end Ownership
