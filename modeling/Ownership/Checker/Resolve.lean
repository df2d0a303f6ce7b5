import Ownership.Checker.Violation
import Ownership.Env
import Ownership.Ty.Path
import Ownership.Ty.Union

/-!
# Resolving places

What type a place has, and whether it may be read or written. The type of a place
behind a borrow is the union of the types at all targets of the borrow
(`typeOf`). Targets may lead back to where they are followed from; a bound on the
crossings in a row tells such a place from one that has a type (`crossings`).

* `availability`: a place under a shadow is gone; whatever lies behind a borrow is there.
* `strike`: moving out of a place leaves a shadow, and is not possible through a borrow.
-/

namespace Ownership

/-- The slot of the variable that `p` starts from. -/
def Env.declared (env : Env) (p : Place) : Except Violation Slot :=
  match env.get? p.name with
  | some slot => .ok slot
  | none => .error (.undeclared p.name)

/-! ### Types of places -/

/-- How many borrows in a row are followed from `p` before it is given up, where the types on the
way have `targets` borrowed places in all and are of size `weight`. Crossing a borrow puts the path
of a target in the stead of one selector. If the place has a type, the same target is not met again
while that path is followed: targets nest no deeper than there are targets, and each is met at most
once for every selector of the target around it. Targets that lead back to themselves give no type,
but another target may fail before they are followed any further, at a depth that grows with the
size of the types; the degree leaves room for that. -/
def crossings (weight targets : Nat) (p : Place) : Nat :=
  Nat.pow (weight + p.path.length + 8) (targets + 8)

/-- The union of the types of `places`, put together from left to right. -/
def unionOver (typeAt : Place → Except Violation Ty) : Option Ty → List Place → Except Violation Ty
  | joined, [] => .ok (joined.getD .unit)
  | joined, p :: ps => do
    let t ← typeAt p
    match joined with
    | none => unionOver typeAt (some t) ps
    | some u =>
      match u.union t with
      | some v => unionOver typeAt (some v) ps
      | none => .error (.incompatible u t)

/-- The type of a place, if fewer than `n` borrows in a row are crossed on the way to it. -/
def typeUpTo (env : Env) : Nat → Place → Except Violation Ty
  | 0, _ => .error .endless
  | n + 1, p => do
    let slot ← env.declared p
    match slot.ty.follow p.path with
    | .reached t => .ok t
    | .crossed _ targets rest =>
      unionOver (typeUpTo env n) none (targets.toList.map (·.extend rest))
    | .notReference => .error (.expectedReference p)
    | .shadowed | .misfit => .error (.invalidPath p)

def typeOf (env : Env) (p : Place) : Except Violation Ty :=
  typeUpTo env (crossings env.weight env.targets.length p) p

/-! ### Availability -/

inductive Availability where
  | available
  | moved
  | immutable
  | badPath
  deriving DecidableEq

/-- Whether `p` can be read, or written if `write` is set, after what has been moved out. A
place that has been moved out can be written, but nothing below it can be reached. Behind a
borrow nothing has been moved out, so only the mutability of the borrow counts. -/
def availability (env : Env) (p : Place) (write : Bool) : Availability :=
  match env.get? p.name with
  | none => .badPath
  | some slot =>
    match slot.ty.follow p.path with
    | .reached t => if write || t.defined then .available else .moved
    | .crossed mutable _ _ => if write && !mutable then .immutable else .available
    | .shadowed => .moved
    | .notReference | .misfit => .badPath

/-- Demands that `p` is available; `gone` tells what to answer if it has been moved out. -/
def require (env : Env) (p : Place) (write : Bool) (gone : Violation) : Except Violation Unit :=
  match availability env p write with
  | .available => .ok ()
  | .moved => .error gone
  | .immutable => .error (.notMutable p)
  | .badPath => .error (.invalidPath p)

/-! ### Moving out -/

/-- The type of the variable after the value at `p` has been moved out. -/
def strike (t : Ty) (p : Place) : Except Violation Ty :=
  match t.follow p.path with
  | .reached u => .ok (t.replaceAt p.path (.shadow u))
  | .crossed _ targets rest =>
    match targets.first? with
    | some q => .error (.moveThroughBorrow (q.extend rest))
    | none => .error (.invalidPath p)
  | .shadowed | .notReference | .misfit => .error (.invalidPath p)

end Ownership
