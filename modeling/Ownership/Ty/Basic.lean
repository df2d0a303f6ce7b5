import Ownership.Place.Set

/-!
# Types

The type of a place says what is stored there, where its references may point,
and what has been moved out of it. A part that has been moved out keeps its type
under a shadow: the borrows in it still count.

* `Ty.copyable`, `Ty.defined`: what may be copied, what is whole.
* `Ty.borrows`: every borrow inside a type; `borrowed`, `prohibitsReading` and
  `prohibitsWriting` are read off it.
* `Ty.induction`: induction over types with a hypothesis for every component.
-/

namespace Ownership

inductive Ty where
  | unit
  | int
  /-- An owning reference to a heap cell. -/
  | box (inner : Ty)
  /-- A reference to one of the `targets`. -/
  | borrow (mutable : Bool) (targets : PlaceSet)
  /-- What is left of a value that has been moved out. -/
  | shadow (inner : Ty)
  | compound (components : List Ty)

namespace Ty

@[elab_as_elim, induction_eliminator]
theorem induction {motive : Ty → Prop} (unit : motive .unit) (int : motive .int)
    (box : ∀ t, motive t → motive (.box t)) (borrow : ∀ m ps, motive (.borrow m ps))
    (shadow : ∀ t, motive t → motive (.shadow t))
    (compound : ∀ ts, (∀ t ∈ ts, motive t) → motive (.compound ts)) : ∀ t, motive t :=
  Ty.rec (motive_1 := motive) (motive_2 := fun ts => ∀ t ∈ ts, motive t)
    unit int box borrow shadow compound (fun _ m => absurd m List.not_mem_nil)
    fun _ _ h hs _ m => (List.mem_cons.1 m).elim (fun e => e ▸ h) (hs _)

mutual

def decEq : (a b : Ty) → Decidable (a = b)
  | unit, unit => isTrue rfl
  | int, int => isTrue rfl
  | box a, box b =>
    match decEq a b with
    | isTrue h => isTrue (h ▸ rfl)
    | isFalse h => isFalse fun e => h (box.inj e)
  | borrow m ps, borrow n qs =>
    if h : m = n ∧ ps = qs then isTrue (h.1 ▸ h.2 ▸ rfl) else isFalse fun e => h (borrow.inj e)
  | shadow a, shadow b =>
    match decEq a b with
    | isTrue h => isTrue (h ▸ rfl)
    | isFalse h => isFalse fun e => h (shadow.inj e)
  | compound as, compound bs =>
    match decEqAll as bs with
    | isTrue h => isTrue (h ▸ rfl)
    | isFalse h => isFalse fun e => h (compound.inj e)
  | unit, int | unit, box _ | unit, borrow .. | unit, shadow _ | unit, compound _
  | int, unit | int, box _ | int, borrow .. | int, shadow _ | int, compound _
  | box _, unit | box _, int | box _, borrow .. | box _, shadow _ | box _, compound _
  | borrow .., unit | borrow .., int | borrow .., box _ | borrow .., shadow _
  | borrow .., compound _
  | shadow _, unit | shadow _, int | shadow _, box _ | shadow _, borrow .. | shadow _, compound _
  | compound _, unit | compound _, int | compound _, box _ | compound _, borrow ..
  | compound _, shadow _ => isFalse nofun

def decEqAll : (as bs : List Ty) → Decidable (as = bs)
  | [], [] => isTrue rfl
  | a :: as, b :: bs =>
    match decEq a b, decEqAll as bs with
    | isTrue h, isTrue hs => isTrue (h ▸ hs ▸ rfl)
    | isFalse h, _ => isFalse fun e => h (List.cons.inj e).1
    | _, isFalse hs => isFalse fun e => hs (List.cons.inj e).2
  | [], _ :: _ | _ :: _, [] => isFalse nofun

end

instance : DecidableEq Ty := decEq

/-- The type of a fresh borrow of `p`. -/
def borrowOf (mutable : Bool) (p : Place) : Ty := borrow mutable (.singleton p)

/-! ### Copies and moved parts -/

mutual

/-- A value of the type may be copied: it owns nothing and is no unique reference. -/
def copyable : Ty → Bool
  | unit | int => true
  | borrow m _ => !m
  | compound ts => allCopyable ts
  | box _ | shadow _ => false

def allCopyable : List Ty → Bool
  | [] => true
  | t :: ts => t.copyable && allCopyable ts

end

mutual

/-- No part of the value has been moved out. -/
def defined : Ty → Bool
  | shadow _ => false
  | box t => t.defined
  | compound ts => allDefined ts
  | unit | int | borrow .. => true

def allDefined : List Ty → Bool
  | [] => true
  | t :: ts => t.defined && allDefined ts

end

theorem allCopyable_eq (ts : List Ty) : allCopyable ts = ts.all copyable := by
  induction ts with
  | nil => rfl
  | cons t ts ih => simp [allCopyable, ih]

theorem allDefined_eq (ts : List Ty) : allDefined ts = ts.all defined := by
  induction ts with
  | nil => rfl
  | cons t ts ih => simp [allDefined, ih]

/-- What may be copied is whole. -/
theorem defined_of_copyable {t : Ty} (h : t.copyable = true) : t.defined = true := by
  induction t with
  | compound ts ih =>
    rw [copyable, allCopyable_eq, List.all_eq_true] at h
    rw [defined, allDefined_eq, List.all_eq_true]
    exact fun t ht => ih t ht (h t ht)
  | box => cases h
  | shadow => cases h
  | _ => rfl

/-! ### Borrows inside a type -/

mutual

/-- Every borrow inside the type, from left to right: its mutability and its targets. A
shadow hides none of them, since a borrow that has been moved out still exists elsewhere. -/
def borrows : Ty → List (Bool × PlaceSet)
  | borrow m ps => [(m, ps)]
  | box t | shadow t => t.borrows
  | compound ts => allBorrows ts
  | unit | int => []

def allBorrows : List Ty → List (Bool × PlaceSet)
  | [] => []
  | t :: ts => t.borrows ++ allBorrows ts

end

theorem allBorrows_eq (ts : List Ty) : allBorrows ts = ts.flatMap borrows := by
  induction ts with
  | nil => rfl
  | cons t ts ih => simp [allBorrows, ih]

/-- Every place borrowed inside the type. -/
def borrowed (t : Ty) : List Place := t.borrows.flatMap fun b => b.2.toList

/-- A mutable borrow inside the type forbids reading `p`. -/
def prohibitsReading (t : Ty) (p : Place) : Bool :=
  t.borrows.any fun b => b.1 && b.2.toList.any (·.conflicts p)

/-- A borrow inside the type forbids writing `p`. -/
def prohibitsWriting (t : Ty) (p : Place) : Bool :=
  t.borrows.any fun b => b.2.toList.any (·.conflicts p)

mutual

/-- The size of the type: its parts, the targets of its borrows and the selectors of these. -/
def weight : Ty → Nat
  | unit | int => 1
  | box t | shadow t => t.weight + 1
  | borrow _ ps => ps.toList.foldl (fun n p => n + p.path.length + 1) 1
  | compound ts => totalWeight ts + 1

def totalWeight : List Ty → Nat
  | [] => 0
  | t :: ts => t.weight + totalWeight ts

end

/-! ### Text -/

mutual

def text : Ty → String
  | unit => "()"
  | int => "int"
  | box t => "☐" ++ t.text
  | borrow m ps => (if m then "&mut " else "&") ++ ",".intercalate (ps.toList.map Place.text)
  | shadow t => "⊥" ++ t.text
  | compound ts => "(" ++ ",".intercalate (texts ts) ++ ")"

def texts : List Ty → List String
  | [] => []
  | t :: ts => t.text :: texts ts

end

end Ty

end Ownership
