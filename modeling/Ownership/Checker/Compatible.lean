import Ownership.Checker.Resolve

/-!
# Compatible types

Two types are compatible if a value of one can stand where a value of the other
stood: they have one shape, shadows apart, and their borrows lead to compatible
types. The two types may come from different environments, as after the two arms
of a conditional. All targets of one borrow have compatible types, so the first
stands for the others.
-/

namespace Ownership

/-- How strictly the referents of two mutable borrows are compared. -/
inductive Variance where
  /-- They have to be compatible. -/
  | covariant
  /-- They have to be the same type, borrow targets included. -/
  | invariant
  deriving DecidableEq, Repr

namespace Ty

mutual

/-- Compares two types, shadows apart, and leaves pairs of borrows to `refer`. -/
def alike (refer : Bool → PlaceSet → PlaceSet → Except Violation Bool) :
    Ty → Ty → Except Violation Bool
  | shadow a, b => alike refer a b
  | unit, b =>
    match b.unshadowed with
    | unit => .ok true
    | _ => .ok false
  | int, b =>
    match b.unshadowed with
    | int => .ok true
    | _ => .ok false
  | box a, b =>
    match b.unshadowed with
    | box b => alike refer a b
    | _ => .ok false
  | borrow m ps, b =>
    match b.unshadowed with
    | borrow n qs => if m = n then refer m ps qs else .ok false
    | _ => .ok false
  | compound as, b =>
    match b.unshadowed with
    | compound bs => if as.length = bs.length then alikeAll refer as bs else .ok false
    | _ => .ok false

def alikeAll (refer : Bool → PlaceSet → PlaceSet → Except Violation Bool) :
    List Ty → List Ty → Except Violation Bool
  | a :: as, b :: bs => do
    if ← alike refer a b then alikeAll refer as bs else .ok false
  | _, _ => .ok true

end

end Ty

/-- The type of `p`, or nothing if it has none. -/
def typeOf? (env : Env) (p : Place) : Except Violation (Option Ty) :=
  match typeOf env p with
  | .ok t => .ok (some t)
  | .error .endless => .error .endless
  | .error _ => .ok none

/-- Compatibility of types whose borrows lead to one another fewer than `n` times in a row. -/
def compatibleUpTo (variance : Variance) (env₁ env₂ : Env) : Nat → Ty → Ty → Except Violation Bool
  | 0, _, _ => .error .endless
  | n + 1, t₁, t₂ =>
    t₁.alike (fun mutable ps qs =>
      match ps.first?, qs.first? with
      | some p, some q => do
        let r₁ ← typeOf? env₁ p
        let r₂ ← typeOf? env₂ q
        match r₁, r₂ with
        | some r₁, some r₂ =>
          if mutable ∧ variance = .invariant then .ok (r₁ == r₂)
          else compatibleUpTo variance env₁ env₂ n r₁ r₂
        | _, _ => .ok false
      | _, _ => .ok false) t₂

/-- Whether `t₁` in `env₁` is compatible with `t₂` in `env₂`. After the first borrow the
comparison goes from one pair of targets of the two environments to another, so it ends within
as many crossings as there are such pairs, or not at all. -/
def compatible (variance : Variance) (env₁ : Env) (t₁ t₂ : Ty) (env₂ : Env) :
    Except Violation Bool :=
  compatibleUpTo variance env₁ env₂ (env₁.targets.length * env₂.targets.length + 2) t₁ t₂

end Ownership
