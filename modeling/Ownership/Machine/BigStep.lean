import Ownership.Machine.Rule

/-!
# Big steps

Reduces a term to a value in one go, by recursion on the term: only the arm that
a conditional takes is reduced, and that is a part of the conditional.

* A block drops the value of each statement but the last, and then goes back to the frame that
  it was entered with.
* A part is reduced until it is a value (`settled`). One big step does that.
* A value comes back as it stands, with the text that it was read from.
-/

namespace Ownership

/-- The value that a step has come to. It is not expected to stop before that. -/
def Run.settled (x : Run (State × Term)) : Run (State × Value) := do
  let (s, t) ← x
  match t.value? with
  | some v => return (s, v)
  | none => throw .unfinished

namespace Machine

variable [HashOrder]

mutual

/-- Reduces `term` to a value. Each extension is offered the term before the rules of the core
are, and the first that has a rule for it decides. -/
def bigStep (m : Machine) (s : State) (l : Lifetime) (term : Term) : Run (State × Term) :=
  let offered := m.extensions.findSome? fun e =>
    match term with
    | .ext span opcode operands =>
      (e.form? opcode).map fun
        | .tuple => do
          let (s, vs) ← m.bigStepAll s l operands
          (s.tuple vs).reduct
        | .conditional equal => m.bigConditional s l span opcode equal operands
    | _ => none
  offered.getD <|
    match term with
    | .value .. => return (s, term)
    | .access _ kind p => (s.access kind p).reduct
    | .borrow _ _ p => do return (s, .ofValue (← s.borrow p))
    | .box _ content => do
      let (s, v) ← (m.bigStep s l content).settled
      (s.box l v).reduct
    | .letMut _ name _ init => do
      let (s, v) ← (m.bigStep s l init).settled
      (s.bind name l v).reduct
    | .assign _ p source => do
      let (s, v) ← (m.bigStep s l source).settled
      (s.assign p v).reduct
    | .block _ inner statements => do
      let (t, v) ← m.bigSteps s inner statements
      (t.leave s.frame inner v).reduct
    | .ext .. => throw (.stuck term.text)

/-- Reduces statements one after the other and drops the values of all but the last. -/
def bigSteps (m : Machine) (s : State) (l : Lifetime) : List Term → Run (State × Value)
  | [] => return (s, .unit)
  | [last] => (m.bigStep s l last).settled
  | t :: ts => do
    let (s, v) ← (m.bigStep s l t).settled
    let s ← if v = .unit then pure s else s.discard v []
    m.bigSteps s l ts

/-- Reduces operands from left to right. -/
def bigStepAll (m : Machine) (s : State) (l : Lifetime) : List Term → Run (State × List Value)
  | [] => return (s, [])
  | t :: ts => do
    let (s, v) ← (m.bigStep s l t).settled
    let (s, vs) ← m.bigStepAll s l ts
    return (s, v :: vs)

/-- Reduces the operands of a conditional, and then the arm that it takes. -/
def bigConditional (m : Machine) (s : State) (l : Lifetime) (span : Span) (opcode : Nat)
    (equal : Bool) : List Term → Run (State × Term)
  | [lhs, rhs, onTrue, onFalse] => do
    let (s, left) ← (m.bigStep s l lhs).settled
    let (s, right) ← (m.bigStep s l rhs).settled
    if State.takesFirst equal left right then
      let s ← s.branch left right onTrue
      m.bigStep s l onTrue
    else
      let s ← s.branch left right onFalse
      m.bigStep s l onFalse
  | operands => throw (.stuck (Term.ext span opcode operands).text)

end

/-- A term of an extension goes the way of its form. -/
theorem bigStep_form (m : Machine) (s : State) (l : Lifetime) (span : Span) (opcode : Nat)
    (operands : List Term) : m.bigStep s l (.ext span opcode operands) =
      match formOf? m.extensions opcode with
      | some .tuple => m.bigStepAll s l operands >>= fun x => (x.1.tuple x.2).reduct
      | some (.conditional equal) => m.bigConditional s l span opcode equal operands
      | none => throw (.stuck (Term.ext span opcode operands).text) := by
  rw [bigStep, offer_form]
  rcases formOf? m.extensions opcode with _ | _ | _ <;> rfl

end Machine

end Ownership
