import Ownership.Ty.Basic

/-!
# Union of types

Two types of one shape have a union: it borrows what either of them borrows, and
a part is shadowed if it is in either of them.

* `Joins`: how the union is put together, with one case for all shadows.
* `joins_of_union`: **every union is put together in this way.**
-/

namespace Ownership.Ty

/-- The type without its outermost shadow. -/
def peel : Ty → Ty
  | shadow t => t
  | t => t

/-- The type without the shadows around it. -/
def unshadowed : Ty → Ty
  | shadow t => t.unshadowed
  | t => t

/-- Applies `f` to the type under the shadows around it, and puts the shadows back. -/
def beneath (f : Ty → Option Ty) : Ty → Option Ty
  | shadow t => (t.beneath f).map shadow
  | t => f t

mutual

/-- The least type that both types can be seen as, if they have one shape. -/
def union : Ty → Ty → Option Ty
  | shadow a, b => (union a b.peel).map shadow
  | unit, b => b.beneath fun
    | unit => some unit
    | _ => none
  | int, b => b.beneath fun
    | int => some int
    | _ => none
  | box a, b => b.beneath fun
    | box b => (union a b).map box
    | _ => none
  | borrow m ps, b => b.beneath fun
    | borrow n qs => if m = n then some (borrow m (ps ∪ qs)) else none
    | _ => none
  | compound as, b => b.beneath fun
    | compound bs => (unionAll as bs).map compound
    | _ => none

/-- Component by component; lists of different length have no union. -/
def unionAll : List Ty → List Ty → Option (List Ty)
  | [], [] => some []
  | a :: as, b :: bs =>
    match union a b, unionAll as bs with
    | some t, some ts => some (t :: ts)
    | _, _ => none
  | _, _ => none

end

/-! ### How a union is put together -/

variable {a b c : Ty} {as bs cs : List Ty}

/-- Component by component. -/
theorem unionAll_getElem? (h : unionAll as bs = some cs) :
    cs.length = as.length ∧ cs.length = bs.length ∧ ∀ (i : Nat) c, cs[i]? = some c →
      ∃ a b, as[i]? = some a ∧ bs[i]? = some b ∧ a.union b = some c := by
  induction as generalizing bs cs with
  | nil =>
    cases bs with
    | nil =>
      cases h
      exact ⟨rfl, rfl, nofun⟩
    | cons => cases h
  | cons a as ih =>
    cases bs with
    | nil => cases h
    | cons b bs =>
      simp only [unionAll] at h
      split at h
      · rename_i c cs hc hcs
        cases h
        obtain ⟨hl, hl', each⟩ := ih hcs
        refine ⟨congrArg (· + 1) hl, congrArg (· + 1) hl', fun i d hd => ?_⟩
        cases i with
        | zero =>
          cases hd
          exact ⟨a, b, rfl, rfl, hc⟩
        | succ i => exact each i d hd
      · cases h

/-- **The third type is the union of the first two.** A shadow around either of them is around the
union. -/
inductive Joins : Ty → Ty → Ty → Prop where
  | unit : Joins .unit .unit .unit
  | int : Joins .int .int .int
  | box {a b c : Ty} : Joins a b c → Joins (.box a) (.box b) (.box c)
  | borrow {m : Bool} {ps qs : PlaceSet} :
      Joins (.borrow m ps) (.borrow m qs) (.borrow m (ps ∪ qs))
  | compound {as bs cs : List Ty} : unionAll as bs = some cs →
      (∀ (i : Nat) a b c, as[i]? = some a → bs[i]? = some b → cs[i]? = some c → Joins a b c) →
      Joins (.compound as) (.compound bs) (.compound cs)
  | shadow {a b c : Ty} : (∃ t, a = .shadow t ∨ b = .shadow t) → Joins a.peel b.peel c →
      Joins a b (.shadow c)

theorem union_shadow (h : ∃ t, a = .shadow t ∨ b = .shadow t) :
    a.union b = (a.peel.union b.peel).map shadow := by
  obtain ⟨t, rfl | rfl⟩ := h
  · rw [union]
    rfl
  · cases a <;> simp only [peel, union, beneath]

theorem joins_beneath {f : Ty → Option Ty} (ha : a.peel = a)
    (hf : ∀ b c, f b = some c → Joins a b c) (h : b.beneath f = some c) : Joins a b c := by
  induction b generalizing c with
  | shadow b ih =>
    obtain ⟨c, hc, rfl⟩ := Option.map_eq_some_iff.1 h
    exact .shadow ⟨b, .inr rfl⟩ (ha.symm ▸ ih hc)
  | unit => exact hf _ _ h
  | int => exact hf _ _ h
  | box => exact hf _ _ h
  | borrow => exact hf _ _ h
  | compound => exact hf _ _ h

theorem joins_of_union (h : a.union b = some c) : Joins a b c := by
  induction a generalizing b c with
  | shadow a ih =>
    rw [union] at h
    obtain ⟨c, hc, rfl⟩ := Option.map_eq_some_iff.1 h
    exact .shadow ⟨a, .inl rfl⟩ (ih hc)
  | unit =>
    rw [union] at h
    refine joins_beneath rfl (fun b c h => ?_) h
    cases b <;> cases h
    exact .unit
  | int =>
    rw [union] at h
    refine joins_beneath rfl (fun b c h => ?_) h
    cases b <;> cases h
    exact .int
  | box a ih =>
    rw [union] at h
    refine joins_beneath rfl (fun b c h => ?_) h
    cases b with
    | box b =>
      obtain ⟨c, hc, rfl⟩ := Option.map_eq_some_iff.1 h
      exact .box (ih hc)
    | _ => cases h
  | borrow m ps =>
    rw [union] at h
    refine joins_beneath rfl (fun b c h => ?_) h
    cases b with
    | borrow n qs =>
      simp only at h
      split at h
      · rename_i e
        cases h
        subst e
        exact .borrow
      · cases h
    | _ => cases h
  | compound as ih =>
    rw [union] at h
    refine joins_beneath rfl (fun b c h => ?_) h
    cases b with
    | compound bs =>
      obtain ⟨cs, hcs, rfl⟩ := Option.map_eq_some_iff.1 h
      obtain ⟨-, -, each⟩ := unionAll_getElem? hcs
      refine .compound hcs fun i a b c ha hb hc => ?_
      obtain ⟨a', b', ha', hb', h⟩ := each i c hc
      cases ha.symm.trans ha'
      cases hb.symm.trans hb'
      exact ih a (List.mem_of_getElem? ha) h
    | _ => cases h

theorem Joins.union (h : Joins a b c) : a.union b = some c := by
  induction h with
  | unit => rfl
  | int => rfl
  | box _ ih => simp [Ty.union, beneath, ih]
  | borrow => simp [Ty.union, beneath]
  | compound h => simp [Ty.union, beneath, h]
  | shadow hs _ ih => rw [union_shadow hs, ih]; rfl

/-- The union of whole types is whole. -/
theorem defined_union (h : a.union b = some c) (ha : a.defined = true) (hb : b.defined = true) :
    c.defined = true := by
  have hj := joins_of_union h
  clear h
  induction hj with
  | unit => rfl
  | int => rfl
  | box _ ih => exact ih ha hb
  | borrow => rfl
  | shadow hs =>
    obtain ⟨t, rfl | rfl⟩ := hs
    · cases ha
    · cases hb
  | compound hcs _ ih =>
    obtain ⟨-, -, each⟩ := unionAll_getElem? hcs
    rw [defined, allDefined_eq, List.all_eq_true] at ha hb ⊢
    intro c hc
    obtain ⟨i, hi⟩ := List.mem_iff_getElem?.1 hc
    obtain ⟨a, b, ha', hb', -⟩ := each i c hi
    exact ih i a b c ha' hb' hi (ha a (List.mem_of_getElem? ha')) (hb b (List.mem_of_getElem? hb'))

end Ownership.Ty
