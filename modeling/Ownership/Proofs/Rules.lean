import Ownership.Machine.Rule

/-!
# What the rules do

Each rule of the machine looks at the store, changes a cell or two of it and drops
what is given up. For each rule, what has to hold for it to succeed and what it leaves
(`State.access_ok` and so on): all that is proved about reductions rests on these.
-/

namespace Ownership

variable {l inner : Lifetime} {p : Place} {r : Reference} {v w : Value} {vs : List Value}

/-- Whether an access of this kind moves the value `v`. -/
def AccessKind.moves : AccessKind → Value → Bool
  | copy, _ => false
  | move, _ => true
  | inferred, v => v.containsOwner

namespace Store

variable [HashOrder] {s s' : Store} {n : Nat}

theorem dropValue_result (s : Store) (v : Value) (vs : List Value) :
    (s.dropValue v vs).result =
      s.finalize [v] >>= fun x => (x.1.checkAfterDrop vs).map fun _ => x.1 := by
  simp only [dropValue, Traced.result_bind, Traced.result_within, Traced.result_lift]
  cases s.finalize [v] with
  | error e => rfl
  | ok x =>
    simp only [Traced.ok_bind]
    by_cases hn : 0 < x.2
    · simp only [hn, if_true, Traced.result_bind, Traced.result_note, Traced.ok_bind,
        Traced.result_lift]
      cases x.1.checkAfterDrop vs <;> rfl
    · simp only [hn, if_false, Traced.result_bind, Traced.result_lift]
      cases x.1.checkAfterDrop vs <;> rfl

theorem dropValue_ok : (s.dropValue v vs).result = .ok s' ↔
    (∃ n, s.finalize [v] = .ok (s', n)) ∧ s'.checkAfterDrop vs = .ok () := by
  rw [dropValue_result, Traced.bind_eq_ok]
  constructor
  · rintro ⟨⟨s₁, n⟩, h, hm⟩
    obtain ⟨u, hc, rfl⟩ := Traced.map_eq_ok.1 hm
    exact ⟨⟨n, h⟩, hc⟩
  · rintro ⟨⟨n, h⟩, hc⟩
    exact ⟨(s', n), h, Traced.map_eq_ok.2 ⟨(), hc, rfl⟩⟩

theorem dropLifetime_result (s : Store) (l : Lifetime) (vs : List Value) :
    (s.dropLifetime l vs).result =
      (s.freeCellsOf l).finalize ((s.cellsOf l).map (·.value)) >>= fun x =>
        (x.1.checkAfterDrop vs).map fun _ => x.1 := by
  simp only [dropLifetime, Traced.result_bind, Traced.result_within, Traced.result_lift,
    Traced.result_note]
  cases (s.freeCellsOf l).finalize _ with
  | error e => rfl
  | ok x =>
    simp only [Traced.ok_bind]
    cases x.1.checkAfterDrop vs <;> rfl

theorem dropLifetime_ok : (s.dropLifetime l vs).result = .ok s' ↔
    (∃ n, (s.freeCellsOf l).finalize ((s.cellsOf l).map (·.value)) = .ok (s', n)) ∧
      s'.checkAfterDrop vs = .ok () := by
  rw [dropLifetime_result, Traced.bind_eq_ok]
  constructor
  · rintro ⟨⟨s₁, n⟩, h, hm⟩
    obtain ⟨u, hc, rfl⟩ := Traced.map_eq_ok.1 hm
    exact ⟨⟨n, h⟩, hc⟩
  · rintro ⟨⟨n, h⟩, hc⟩
    exact ⟨(s', n), h, Traced.map_eq_ok.2 ⟨(), hc, rfl⟩⟩

end Store

namespace State

variable {s s' : State} {t : Term}

theorem access_result (s : State) (k : AccessKind) (p : Place) :
    (s.access k p).result = s.locate p >>= fun r => s.store.read r >>= fun v =>
      if v = .undefined then .error (.undefinedRead r.address)
      else if k.moves v then
        (s.store.write r .undefined).map fun st => ({ s with store := st }, v)
      else .ok (s, v) := by
  simp only [access, Traced.result_bind, Traced.result_lift]
  refine congrArg _ (funext fun r => congrArg _ (funext fun v => ?_))
  by_cases hu : v = .undefined
  · simp only [hu, if_true]
    rfl
  · simp only [hu, if_false]
    have moved : (do
        Traced.note (Event.moved p v)
        let store ← liftM (s.store.write r .undefined)
        return ({ s with store }, v) : Run (State × Value)).result =
          (s.store.write r .undefined).map fun st => ({ s with store := st }, v) := by
      simp only [Traced.result_bind, Traced.result_lift, Traced.result_note, Traced.ok_bind]
      cases s.store.write r .undefined <;> rfl
    cases k with
    | copy => rfl
    | move => exact moved
    | inferred =>
      show Traced.result (if v.containsOwner then _ else _) = if v.containsOwner then _ else _
      split
      · exact moved
      · rfl

theorem access_ok {k : AccessKind} : (s.access k p).result = .ok (s', v) ↔
    ∃ r, s.locate p = .ok r ∧ s.store.read r = .ok v ∧ v ≠ .undefined ∧
      if k.moves v then ∃ st, s.store.write r .undefined = .ok st ∧ s' = { s with store := st }
      else s' = s := by
  simp only [access_result, Traced.bind_eq_ok]
  refine exists_congr fun r => and_congr_right fun _ => ?_
  constructor
  · rintro ⟨w, hw, h⟩
    split at h
    · cases h
    · rename_i hu
      split at h
      · rename_i hk
        obtain ⟨st, hst, e⟩ := Traced.map_eq_ok.1 h
        cases e
        exact ⟨hw, hu, by rw [if_pos hk]; exact ⟨st, hst, rfl⟩⟩
      · rename_i hk
        cases h
        exact ⟨hw, hu, by rw [if_neg hk]⟩
  · rintro ⟨hw, hu, h⟩
    refine ⟨v, hw, ?_⟩
    rw [if_neg hu]
    split at h
    · rename_i hk
      obtain ⟨st, hst, rfl⟩ := h
      rw [if_pos hk, hst]
      rfl
    · rename_i hk
      rw [if_neg hk, h]

theorem borrow_ok : (s.borrow p).result = .ok v ↔
    ∃ r, s.locate p = .ok r ∧ v = .ref r.toBorrow := by
  simp only [borrow, Traced.result_bind_ok, Traced.result_lift]
  constructor
  · rintro ⟨r, hr, -, -, e⟩
    cases e
    exact ⟨r, hr, rfl⟩
  · rintro ⟨r, hr, rfl⟩
    exact ⟨r, hr, (), rfl, rfl⟩

theorem box_ok : (s.box l v).result = .ok (s', w) ↔
    s' = { s with store := (s.store.allocate l.global v).1 } ∧
      w = .ref (.owned s.store.cells.size) := by
  constructor
  · intro h
    cases h
    exact ⟨rfl, rfl⟩
  · rintro ⟨rfl, rfl⟩
    rfl

theorem bind_ok {x : String} :
    (s.bind x l v).result = .ok (s', w) ↔ s' = s.declare x l v ∧ w = .unit := by
  constructor
  · intro h
    cases h
    exact ⟨rfl, rfl⟩
  · rintro ⟨rfl, rfl⟩
    rfl

theorem tuple_ok : (s.tuple vs).result = .ok (s', w) ↔ s' = s ∧ w = .compound vs := by
  constructor
  · intro h
    cases h
    exact ⟨rfl, rfl⟩
  · rintro ⟨rfl, rfl⟩
    rfl

variable [HashOrder]

theorem assign_ok : (s.assign p v).result = .ok (s', w) ↔
    ∃ r old st st', s.locate p = .ok r ∧ s.store.read r = .ok old ∧ s.store.write r v = .ok st ∧
      (st.dropValue old []).result = .ok st' ∧ s' = { s with store := st' } ∧ w = .unit := by
  simp only [assign, Traced.result_bind_ok, Traced.result_lift]
  constructor
  · rintro ⟨r, hr, old, ho, -, -, st, hst, st', hd, e⟩
    cases e
    exact ⟨r, old, st, st', hr, ho, hst, hd, rfl, rfl⟩
  · rintro ⟨r, old, st, st', hr, ho, hst, hd, rfl, rfl⟩
    exact ⟨r, hr, old, ho, (), rfl, st, hst, st', hd, rfl⟩

theorem branch_ok : (s.branch v w t).result = .ok s' ↔
    ∃ st st', (s.store.dropValue v [w]).result = .ok st ∧ (st.dropValue w []).result = .ok st' ∧
      s' = { s with store := st' } := by
  simp only [branch, Traced.result_bind_ok]
  constructor
  · rintro ⟨-, -, st, h, st', h', e⟩
    cases e
    exact ⟨st, st', h, h', rfl⟩
  · rintro ⟨st, st', h, h', rfl⟩
    exact ⟨(), rfl, st, h, st', h', rfl⟩

theorem discard_ok : (s.discard v vs).result = .ok s' ↔
    ∃ st, (s.store.dropValue v vs).result = .ok st ∧ s' = { s with store := st } := by
  simp only [discard, Traced.result_bind_ok]
  constructor
  · rintro ⟨st, h, e⟩
    cases e
    exact ⟨st, h, rfl⟩
  · rintro ⟨st, h, rfl⟩
    exact ⟨st, h, rfl⟩

theorem leave_ok {frame : NameMap Binding} : (s.leave frame inner v).result = .ok (s', w) ↔
    ∃ st, (s.store.dropLifetime inner [v]).result = .ok st ∧ s' = ⟨frame, st⟩ ∧ w = v := by
  simp only [leave, Traced.result_bind_ok]
  constructor
  · rintro ⟨st, h, e⟩
    cases e
    exact ⟨st, h, rfl, rfl⟩
  · rintro ⟨st, h, rfl, rfl⟩
    exact ⟨st, h, rfl⟩

end State

end Ownership
