import Ownership.Proofs.Checking.Clearer
import Ownership.Proofs.Checking.Compatibility

/-!
# The join of two environments

A join holds the borrows of both arms, and what has been moved out in either of them. It lies above
both environments in the order of their types (`join_beneath`), and a least upper bound does not
depend on which of the two comes first (`Ty.union_comm`).

* `join_comm`: **the arms of a conditional may change places.**
* `join_prohibits`: **what is prohibited after a join is what one of the arms prohibits.**
* `join_upper_bound`: both, and what is available after a join is available after both arms.
-/

namespace Ownership

variable {variance : Variance} {lhs rhs J : Env} {a b c : Ty} {p : Place}

namespace Ty

/-- **The union from the other side** is the same type. -/
theorem union_comm (h : a.union b = some c) : b.union a = some c := by
  obtain ⟨ha, hb⟩ := under_of_union h
  obtain ⟨d, hd, hdc⟩ := exists_union hb ha
  -- both unions are least upper bounds of the two types
  obtain ⟨hb, ha⟩ := under_of_union hd
  obtain ⟨c', hc', hcd⟩ := exists_union ha hb
  cases h.symm.trans hc'
  rw [hd, hdc.antisymm hcd]

theorem prohibitsWriting_union (h : a.union b = some c) (p : Place) :
    c.prohibitsWriting p = (a.prohibitsWriting p || b.prohibitsWriting p) := by
  rw [Bool.eq_iff_iff, Bool.or_eq_true, prohibitsWriting_iff, prohibitsWriting_iff,
    prohibitsWriting_iff]
  simp only [lends_union h, or_and_right, exists_or]

theorem prohibitsReading_union (h : a.union b = some c) (p : Place) :
    c.prohibitsReading p = (a.prohibitsReading p || b.prohibitsReading p) := by
  rw [Bool.eq_iff_iff, Bool.or_eq_true, prohibitsReading_iff, prohibitsReading_iff,
    prohibitsReading_iff]
  simp only [lends_union h, or_and_right, exists_or]

end Ty

/-- **The arms of a conditional may change places.** -/
theorem join_comm (h : join variance lhs rhs = .ok J) : join variance rhs lhs = .ok J := by
  refine join_eq_ok.2 ⟨fun x hr => ?_, fun x right hr => ?_⟩
  · have hl : lhs.get? x = none := (unbound_iff_of_join h).2 hr
    exact ⟨((join_ok h).1 x hl).1, hl⟩
  · obtain ⟨left, t, hl, hlife, hc, hu, hJ⟩ := joined_of_right h hr
    exact ⟨left, t, hl, hlife.symm, by rw [compatible_comm, hc], Ty.union_comm hu, hJ⟩

/-- **A join lies above the environment after the first arm**, and so above both. -/
theorem join_beneath (h : join variance lhs rhs = .ok J) :
    lhs.Beneath (fun ps qs => ∀ p ∈ ps, p ∈ qs) J := by
  intro x
  obtain ⟨hnone, hsome⟩ := join_eq_ok.1 h
  cases hl : lhs.get? x with
  | none =>
    rw [(hnone x hl).1]
    exact .none
  | some left =>
    obtain ⟨right, t, -, -, -, hu, hJ⟩ := hsome x left hl
    rw [hJ]
    exact .some ⟨(Ty.under_of_union hu).1, rfl⟩

/-- The variables of a join have the lifetimes that they have after the first arm. -/
theorem lifetime_join (h : join variance lhs rhs = .ok J) (x : String) :
    (J.get? x).map Slot.lifetime = (lhs.get? x).map Slot.lifetime := by
  have hx := join_beneath h x
  generalize lhs.get? x = o at hx ⊢
  generalize J.get? x = o' at hx ⊢
  cases hx with
  | none => rfl
  | some hs => exact congrArg some hs.2.symm

/-- What is prohibited after the first arm is prohibited after the join. -/
theorem prohibits_of_join {prohibits : Ty → Bool} (h : join variance lhs rhs = .ok J)
    (hunion : ∀ a b c, a.union b = some c → prohibits c = (prohibits a || prohibits b))
    (hl : (lhs.values.any fun s => prohibits s.ty) = true) :
    (J.values.any fun s => prohibits s.ty) = true := by
  rw [List.any_eq_true] at hl ⊢
  obtain ⟨left, hleft, hp⟩ := hl
  obtain ⟨x, hx⟩ := NameMap.mem_values_iff.1 hleft
  obtain ⟨right, t, -, -, -, hu, hJ⟩ := (join_eq_ok.1 h).2 x left hx
  exact ⟨_, NameMap.mem_values hJ, by rw [hunion _ _ _ hu, hp, Bool.true_or]⟩

/-- **What is prohibited after a join is what one of the arms prohibits.** -/
theorem join_prohibits {prohibits : Ty → Bool} (h : join variance lhs rhs = .ok J)
    (hunion : ∀ a b c, a.union b = some c → prohibits c = (prohibits a || prohibits b)) :
    (J.values.any fun s => prohibits s.ty) =
      ((lhs.values.any fun s => prohibits s.ty) || rhs.values.any fun s => prohibits s.ty) := by
  rw [Bool.eq_iff_iff, Bool.or_eq_true]
  refine ⟨fun hJ => ?_, fun hor => ?_⟩
  · rw [List.any_eq_true] at hJ
    obtain ⟨s, hs, hp⟩ := hJ
    obtain ⟨x, hx⟩ := NameMap.mem_values_iff.1 hs
    obtain ⟨left, right, hl, hr, -, -, hu⟩ := joined_of_join h hx
    rw [hunion _ _ _ hu, Bool.or_eq_true] at hp
    exact hp.imp (fun hp => List.any_eq_true.2 ⟨left, NameMap.mem_values hl, hp⟩)
      fun hp => List.any_eq_true.2 ⟨right, NameMap.mem_values hr, hp⟩
  · exact hor.elim (prohibits_of_join h hunion) (prohibits_of_join (join_comm h) hunion)

/-- **A join is a commutative upper bound.** The arms may change places, the variables and their
lifetimes are those after either arm, a place is prohibited just if one of the arms prohibits it,
and what is available was so after both arms: whatever one of them has moved out or borrowed stays
so. -/
theorem join_upper_bound (h : join variance lhs rhs = .ok J) :
    join variance rhs lhs = .ok J ∧
    (∀ x, (J.get? x).map Slot.lifetime = (lhs.get? x).map Slot.lifetime ∧
      (J.get? x).map Slot.lifetime = (rhs.get? x).map Slot.lifetime) ∧
    (∀ p, J.writeProhibited p = (lhs.writeProhibited p || rhs.writeProhibited p) ∧
      J.readProhibited p = (lhs.readProhibited p || rhs.readProhibited p)) ∧
    (∀ p write, availability J p write = .available →
      availability lhs p write = .available ∧ availability rhs p write = .available) :=
  ⟨join_comm h, fun x => ⟨lifetime_join h x, lifetime_join (join_comm h) x⟩,
    fun p => ⟨join_prohibits h fun _ _ _ hu => Ty.prohibitsWriting_union hu p,
      join_prohibits h fun _ _ _ hu => Ty.prohibitsReading_union hu p⟩,
    fun _ _ ha => ⟨(join_beneath h).availability ha, (join_beneath (join_comm h)).availability ha⟩⟩

/-- The environment after an arm that leaves `x` to borrow `borrowed`, and a type of `b`. -/
def afterArm (borrowed : String) (b : Ty) : Env :=
  .declaring (.root 0)
    [("a", .int), ("b", b), ("c", .int), ("x", .borrowOf false (.var borrowed))]

/-- After the join `x` may borrow `a` or `c`, and `b` has been moved out. -/
theorem join_upper_bound_moved :
    ∃ J, join .covariant (afterArm "a" (.box .int)) (afterArm "c" (.shadow (.box .int))) = .ok J ∧
      join .covariant (afterArm "c" (.shadow (.box .int))) (afterArm "a" (.box .int)) = .ok J ∧
      (J.get? "x").map Slot.lifetime = some (.root 0) ∧
      J.writeProhibited (.var "a") = true ∧ J.writeProhibited (.var "c") = true ∧
      J.readProhibited (.var "c") = false ∧
      availability (afterArm "c" (.shadow (.box .int))) (.var "b") false = .moved ∧
      availability J (.var "b") false ≠ .available ∧
      availability (afterArm "a" (.box .int)) ((Place.var "x").extend [.deref]) false =
        .available := by
  obtain ⟨J, hJ⟩ : ∃ J, join .covariant (afterArm "a" (.box .int))
      (afterArm "c" (.shadow (.box .int))) = .ok J := ⟨_, rfl⟩
  obtain ⟨hcomm, hlife, hprohibits, havailable⟩ := join_upper_bound hJ
  have moved : availability (afterArm "c" (.shadow (.box .int))) (.var "b") false = .moved := rfl
  refine ⟨J, hJ, hcomm, (hlife "x").1, (hprohibits _).1.trans rfl, (hprohibits _).1.trans rfl,
    (hprohibits _).2.trans rfl, moved, fun ha => ?_, (havailable _ _ ?_).1⟩
  · exact absurd (moved.symm.trans (havailable _ _ ha).2) nofun
  · cases hJ
    rfl

end Ownership
