import Ownership.Proofs.Checking.Writes

/-!
# Skeletons of types

The skeleton of a type is what does not change while a variable is moved out of, written to and
borrowed: the type without its shadows and without the targets of its borrows (`Ty.skeleton`).
Compatibility compares first targets only, and sees through shadows, but it compares all of the
skeleton.

* `skeleton_of_compatible`: **compatible types have one skeleton.**
* `skeleton_of_union`, `skeleton_replaceAt`: so have types that are united, and another part of the
  same skeleton leaves the skeleton as it is.
-/

namespace Ownership

namespace Ty

variable {t u a b old new : Ty} {ts us as bs : List Ty} {s : List Selector}

mutual

/-- The type without its shadows and without the targets of its borrows. -/
def skeleton : Ty → Ty
  | unit => unit
  | int => int
  | box t => box t.skeleton
  | borrow m _ => borrow m .empty
  | shadow t => t.skeleton
  | compound ts => compound (skeletons ts)

def skeletons : List Ty → List Ty
  | [] => []
  | t :: ts => t.skeleton :: skeletons ts

end

theorem skeletons_eq (ts : List Ty) : skeletons ts = ts.map skeleton := by
  induction ts with
  | nil => rfl
  | cons t ts ih => rw [skeletons, ih, List.map_cons]

theorem skeleton_peel (t : Ty) : t.peel.skeleton = t.skeleton := by
  cases t with
  | shadow t => rfl
  | _ => rfl

/-- Types whose components have one skeleton each have one skeleton. -/
theorem skeleton_of_components (hl : as.length = bs.length)
    (h : ∀ (i : Nat) a b, as[i]? = some a → bs[i]? = some b → a.skeleton = b.skeleton) :
    (compound as).skeleton = (compound bs).skeleton := by
  rw [skeleton, skeleton, skeletons_eq, skeletons_eq]
  refine congrArg compound (List.ext_getElem? fun i => ?_)
  rw [List.getElem?_map, List.getElem?_map]
  cases ha : as[i]? with
  | none =>
    rw [List.getElem?_eq_none_iff] at ha
    rw [List.getElem?_eq_none (hl ▸ ha)]
  | some a =>
    obtain ⟨b, hb⟩ := Refines.exists_getElem? hl ha
    rw [hb, Option.map_some, Option.map_some, h i a b ha hb]

/-- A part of the same skeleton leaves the skeleton as it is. -/
theorem skeleton_replaceAt (hf : t.follow s = .reached old) (hn : new.skeleton = old.skeleton) :
    (t.replaceAt s new).skeleton = t.skeleton := by
  induction t, s, hf using reached_induction with
  | here => rw [replaceAt_nil, hn]
  | box t s hf ih => exact congrArg box ih
  | component ts i t s hi hf ih =>
    refine skeleton_of_components (by simp) fun j a b ha hb => ?_
    -- only the component on the way has changed
    rcases component_of_modify ha with ⟨a₀, rfl, ha₀, rfl⟩ | ⟨-, ha₀⟩
    · cases hi.symm.trans ha₀
      cases hi.symm.trans hb
      exact ih
    · cases ha₀.symm.trans hb
      rfl

/-! ### Unions -/

/-- **Types that have a union have one skeleton**, and it is that of the union. -/
theorem skeleton_of_union (h : a.union b = some u) :
    b.skeleton = a.skeleton ∧ u.skeleton = a.skeleton := by
  have hj := joins_of_union h
  clear h
  induction hj with
  | unit => exact ⟨rfl, rfl⟩
  | int => exact ⟨rfl, rfl⟩
  | box _ ih => exact ih.imp (congrArg box) (congrArg box)
  | borrow => exact ⟨rfl, rfl⟩
  | shadow _ _ ih => rwa [skeleton_peel, skeleton_peel] at ih
  | compound hus _ ih =>
    obtain ⟨hl, hl', each⟩ := unionAll_getElem? hus
    constructor
    · refine skeleton_of_components (hl'.symm.trans hl) fun i b a hb ha => ?_
      obtain ⟨u, hu⟩ := Refines.exists_getElem? hl.symm ha
      exact (ih i a b u ha hb hu).1
    · refine skeleton_of_components hl fun i u a hu ha => ?_
      obtain ⟨-, b, -, hb, -⟩ := each i u hu
      exact (ih i a b u ha hb hu).2

/-! ### Compatible types -/

/-- Types that are alike have one skeleton, whatever their borrows refer to. -/
theorem Alike.skeleton {R : Bool → PlaceSet → PlaceSet → Prop} (h : a.Alike R b) :
    a.skeleton = b.skeleton := by
  induction h with
  | unit => rfl
  | int => rfl
  | box _ ih => exact congrArg Ty.box ih
  | borrow => rfl
  | compound hl _ ih => exact skeleton_of_components hl ih
  | left _ ih => exact ih
  | right _ ih => exact ih

end Ty

variable {variance : Variance} {Γ₁ Γ₂ : Env} {T U : Ty}

/-- **Compatible types have one skeleton.** -/
theorem skeleton_of_compatible (h : compatible variance Γ₁ T U Γ₂ = .ok true) :
    T.skeleton = U.skeleton := by
  rw [compatible, compatibleUpTo_succ] at h
  exact h.skeleton

end Ownership
