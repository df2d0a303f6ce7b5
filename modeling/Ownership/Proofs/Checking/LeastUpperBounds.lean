import Mathlib.Order.Bounds.Basic
import Ownership.Proofs.Checking.Additions
import Ownership.Proofs.Checking.Joins
import Ownership.Proofs.Checking.Skeletons

/-!
# Types as a partial order

One type is at most another one if their union is the other one. That is the order by shadows and
targets (`Ty.le_iff_under`), so it is a partial order. The union is the least upper bound, there is
one if the types have any upper bound, and they have one just if they have one skeleton. Whatever
holds of least upper bounds so holds of unions: they may be taken in any order and any grouping, and
whether there is a union at all depends on neither.

* `Ty.union_eq_none_iff`: **types have a union unless their skeletons differ.**
* `Ty.union_eq_some_iff`: **the union is the least upper bound.**
* `Ty.union_lattice`: all of it, with what the union borrows and whether it is whole.
-/

namespace Ownership

namespace Ty

variable {a b c d u v : Ty}

/-! ### Which types have a union -/

theorem skeleton_compound (ts : List Ty) : (compound ts).skeleton = compound (ts.map skeleton) := by
  rw [skeleton, skeletons_eq]

/-- Types of one skeleton are alike, whatever their borrows point to. -/
theorem alike_of_skeleton (h : a.skeleton = b.skeleton) : Alike (fun _ _ _ => True) a b := by
  induction a generalizing b with
  | shadow a ih => exact .left (ih h)
  | unit =>
    induction b with
    | shadow b ihb => exact .right (ihb h)
    | unit => exact .unit
    | _ => cases h
  | int =>
    induction b with
    | shadow b ihb => exact .right (ihb h)
    | int => exact .int
    | _ => cases h
  | box a ih =>
    induction b with
    | shadow b ihb => exact .right (ihb h)
    | box b => exact .box (ih (box.inj h))
    | _ => cases h
  | borrow m ps =>
    induction b with
    | shadow b ihb => exact .right (ihb h)
    | borrow n qs =>
      cases h
      exact .borrow trivial
    | _ => cases h
  | compound as ih =>
    induction b with
    | shadow b ihb => exact .right (ihb h)
    | compound bs =>
      rw [skeleton_compound, skeleton_compound] at h
      have hmap : as.map skeleton = bs.map skeleton := compound.inj h
      refine .compound (by simpa using congrArg List.length hmap) fun i a b ha hb => ?_
      have hi := congrArg (·[i]?) hmap
      simp only [List.getElem?_map, ha, hb, Option.map_some, Option.some.injEq] at hi
      exact ih a (List.mem_of_getElem? ha) hi
    | _ => cases h

/-- **Types have a union unless their skeletons differ.** -/
theorem union_eq_none_iff : a.union b = none ↔ a.skeleton ≠ b.skeleton := by
  constructor
  · intro hnone hs
    obtain ⟨u, hu⟩ := (alike_of_skeleton hs).exists_union
    cases hnone.symm.trans hu
  · intro hs
    cases hu : a.union b with
    | none => rfl
    | some u => exact absurd (skeleton_of_union hu).1.symm hs

/-! ### The order -/

/-- **The first type is at most the second one**: their union is the second one. -/
instance : LE Ty := ⟨fun a b => a.union b = some b⟩

theorem le_iff : a ≤ b ↔ a.union b = some b := Iff.rfl

theorem le_iff_under : a ≤ b ↔ a.Under b :=
  ⟨fun h => (under_of_union h).1, union_of_under⟩

instance : PartialOrder Ty where
  le_refl a := le_iff_under.2 (.refl a)
  le_trans _ _ _ h h' := le_iff_under.2 ((le_iff_under.1 h).trans (le_iff_under.1 h'))
  le_antisymm _ _ h h' := (le_iff_under.1 h).antisymm (le_iff_under.1 h')

theorem le_of_union (h : a.union b = some u) : a ≤ u ∧ b ≤ u :=
  (under_of_union h).imp le_iff_under.2 le_iff_under.2

/-- Types with an upper bound have a union, which is at most the bound. -/
theorem union_le (ha : a ≤ d) (hb : b ≤ d) : ∃ u, a.union b = some u ∧ u ≤ d :=
  (exists_union (le_iff_under.1 ha) (le_iff_under.1 hb)).imp fun _ => .imp_right le_iff_under.2

/-- **The union is the least upper bound**, and there is a union if there is an upper bound. -/
theorem union_eq_some_iff : a.union b = some u ↔ IsLUB {a, b} u := by
  constructor
  · intro hu
    refine ⟨?_, fun d hd => ?_⟩
    · rintro t (rfl | rfl)
      · exact (le_of_union hu).1
      · exact (le_of_union hu).2
    · obtain ⟨v, hv, hvd⟩ := union_le (hd (.inl rfl)) (hd (.inr rfl))
      cases hu.symm.trans hv
      exact hvd
  · intro hu
    obtain ⟨v, hv, hvu⟩ := union_le (hu.1 (.inl rfl)) (hu.1 (.inr rfl))
    obtain ⟨ha, hb⟩ := le_of_union hv
    have huv : u ≤ v := hu.2 (by rintro t (rfl | rfl) <;> assumption)
    rw [hv, le_antisymm hvu huv]

/-! ### Unions in any order -/

theorem union_swap (a b : Ty) : a.union b = b.union a :=
  Option.ext fun _ => ⟨union_comm, union_comm⟩

/-- What is united with a union may be united with the second of its types first. -/
theorem union_regroup (hv : a.union b = some v) (hu : v.union c = some u) :
    ∃ w, b.union c = some w ∧ a.union w = some u := by
  obtain ⟨hav, hbv⟩ := le_of_union hv
  obtain ⟨hvu, hcu⟩ := le_of_union hu
  obtain ⟨w, hw, hwu⟩ := union_le (hbv.trans hvu) hcu
  obtain ⟨u', hu', hu'u⟩ := union_le (hav.trans hvu) hwu
  -- the new union bounds all three types, so the old one is no greater
  obtain ⟨hau', hwu'⟩ := le_of_union hu'
  obtain ⟨hbw, hcw⟩ := le_of_union hw
  have hvu' : v ≤ u' := (union_eq_some_iff.1 hv).2 (by
    rintro t (rfl | rfl)
    · exact hau'
    · exact hbw.trans hwu')
  have huu' : u ≤ u' := (union_eq_some_iff.1 hu).2 (by
    rintro t (rfl | rfl)
    · exact hvu'
    · exact hcw.trans hwu')
  exact ⟨w, hw, by rw [hu', le_antisymm hu'u huu']⟩

/-- **Three types have one union**, or none, however they are grouped. -/
theorem union_assoc (a b c : Ty) : (a.union b).bind (·.union c) = (b.union c).bind a.union := by
  refine Option.ext fun u => ?_
  rw [Option.bind_eq_some_iff, Option.bind_eq_some_iff]
  constructor
  · rintro ⟨v, hv, hu⟩
    exact union_regroup hv hu
  · rintro ⟨w, hw, hu⟩
    obtain ⟨v, hv, hu⟩ := union_regroup (union_comm hw) (union_comm hu)
    exact ⟨v, union_comm hv, union_comm hu⟩

/-! ### What a union keeps -/

theorem mem_borrowed_union {p : Place} (h : a.union b = some u) :
    p ∈ u.borrowed ↔ p ∈ a.borrowed ∨ p ∈ b.borrowed := by
  simp only [mem_borrowed, lends_union h, exists_or]

/-- A union is whole just if both types are. -/
theorem defined_union_iff (h : a.union b = some u) :
    u.defined = true ↔ a.defined = true ∧ b.defined = true := by
  obtain ⟨ha, hb⟩ := under_of_union h
  exact ⟨fun hu => ⟨ha.defined hu, hb.defined hu⟩, fun ⟨ha, hb⟩ => defined_union h ha hb⟩

/-- **The union is a partial least upper bound.** It is idempotent, commutative and associative,
with no union where one of the unions is missing, and it is missing just where the types differ
without their shadows and their targets. To be unchanged by a union is a partial order, and unions
are the least upper bounds. A union borrows what one of the types borrows, and is whole just if both
of them are. -/
theorem union_lattice (a b c : Ty) :
    a.union a = some a ∧ a.union b = b.union a ∧
    (a.union b).bind (·.union c) = (b.union c).bind a.union ∧
    (a.union b = none ↔ a.skeleton ≠ b.skeleton) ∧
    IsPartialOrder Ty (fun s t => s.union t = some t) ∧ (a ≤ b ↔ a.union b = some b) ∧
    (a.union b = some c ↔ IsLUB {a, b} c) ∧
    (a.union b = some c → (∀ p, p ∈ c.borrowed ↔ p ∈ a.borrowed ∨ p ∈ b.borrowed) ∧
      (c.defined = true ↔ a.defined = true ∧ b.defined = true)) :=
  ⟨le_refl a, union_swap a b, union_assoc a b c, union_eq_none_iff,
    inferInstanceAs (IsPartialOrder Ty (· ≤ ·)), le_iff, union_eq_some_iff,
    fun h => ⟨fun _ => mem_borrowed_union h, defined_union_iff h⟩⟩

/-- A component that one arm has moved out, and another one that the arms let point to two
places. -/
theorem union_lattice_moved :
    (compound [.shadow (.box .int), .borrowOf true (.var "x")]).union
        (.compound [.box .int, .borrowOf true (.var "y")]) =
      some (.compound [.shadow (.box .int), .borrow true (.ofList [.var "x", .var "y"])]) ∧
    IsLUB {compound [.shadow (.box .int), .borrowOf true (.var "x")],
        .compound [.box .int, .borrowOf true (.var "y")]}
      (.compound [.shadow (.box .int), .borrow true (.ofList [.var "x", .var "y"])]) ∧
    (compound [.shadow (.box .int), .borrow true (.ofList [.var "x", .var "y"])]).defined ≠
      true := by
  have h : (compound [.shadow (.box .int), .borrowOf true (.var "x")]).union
        (.compound [.box .int, .borrowOf true (.var "y")]) =
      some (.compound [.shadow (.box .int), .borrow true (.ofList [.var "x", .var "y"])]) := by
    decide +kernel
  obtain ⟨-, -, -, -, -, -, hlub, hkeeps⟩ := union_lattice
    (.compound [.shadow (.box .int), .borrowOf true (.var "x")])
    (.compound [.box .int, .borrowOf true (.var "y")])
    (.compound [.shadow (.box .int), .borrow true (.ofList [.var "x", .var "y"])])
  exact ⟨h, hlub.1 h, fun hd => absurd ((hkeeps h).2.1 hd).1 (by decide)⟩

end Ty

end Ownership
