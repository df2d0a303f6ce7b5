import Ownership.Checker.Rules
import Ownership.Machine.Evaluate

/-!
# Assessing a program

Checks a program and runs it with both strategies from the empty state. A program
that is accepted should run without a fault, with the same result either way, and
leave nothing behind once its result has been dropped.
-/

namespace Ownership

structure Assessment where
  check : Check Ty
  big : Run (State × Value)
  small : Run (State × Value)
  /-- The store after the result of the big-step run has been dropped, if there is a result. -/
  drop : Option (Run Store)

namespace Assessment

variable [HashOrder]

def run (extensions : List Extension) (checkInvariants : Bool) (strategy : Strategy)
    (root : Lifetime) (term : Term) : Run (State × Value) :=
  Machine.evaluate ⟨strategy, checkInvariants, extensions⟩ {} root term

/-- Assesses `term` under `root`. -/
def of (c : Checker) (checkInvariants : Bool) (root : Lifetime) (term : Term) : Assessment :=
  let big := run c.extensions checkInvariants .bigStep root term
  { check := c.checkProgram root term
    big
    small := run c.extensions checkInvariants .smallStep root term
    drop := match big.result with
      | .ok (s, v) => some (s.store.dropValue v [])
      | .error _ => none }

/-- Both strategies end with the same state and value, or with the same fault. -/
def agree (a : Assessment) : Bool :=
  match a.big.result, a.small.result with
  | .ok x, .ok y => x == y
  | .error e, .error f => e == f
  | _, _ => false

end Assessment

end Ownership
