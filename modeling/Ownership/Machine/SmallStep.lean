import Ownership.Machine.Rule

/-!
# Small steps

Uses one rule, in the leftmost part of the term that is not a value yet, and
returns what is left of the term. A statement that is done is cut off its block: at
once if its value is unit, after a step that drops the value otherwise.
-/

namespace Ownership

/-- Operands after a round of reduction. -/
inductive Operands where
  /-- All of them are values. -/
  | values (vs : List Value)
  /-- One of them has made a step. -/
  | residual (ts : List Term)

namespace Machine

variable [HashOrder]

mutual

/-- Uses one rule on `term`. Each extension is offered the term before the rules of the core are,
and the first that has a rule for it decides. -/
def smallStep (m : Machine) (s : State) (l : Lifetime) (term : Term) : Run (State × Term) :=
  let offered := m.extensions.findSome? fun e =>
    match term with
    | .ext span opcode operands =>
      (e.form? opcode).map fun
        | .tuple => do
          match ← m.stepFirst s l operands with
          | (s, .values vs) => (s.tuple vs).reduct
          | (s, .residual ts) => return (s, .ext span opcode ts)
        | .conditional equal => m.stepConditional s l span opcode equal operands
    | _ => none
  offered.getD <|
    match term with
    | .value .. => return (s, term)
    | .access _ kind p => (s.access kind p).reduct
    | .borrow _ _ p => do return (s, .ofValue (← s.borrow p))
    | .box span content =>
      match content.value? with
      | some v => (s.box l v).reduct
      | none => do
        let (s, content) ← m.smallStep s l content
        return (s, .box span content)
    | .letMut span name nameSpan init =>
      match init.value? with
      | some v => (s.bind name l v).reduct
      | none => do
        let (s, init) ← m.smallStep s l init
        return (s, .letMut span name nameSpan init)
    | .assign span p source =>
      match source.value? with
      | some v => (s.assign p v).reduct
      | none => do
        let (s, source) ← m.smallStep s l source
        return (s, .assign span p source)
    | .block span inner statements =>
      match statements with
      | [] => (s.leave (State.popFrame s.frame inner) inner .unit).reduct
      | t :: ts =>
        match t.value? with
        | some v =>
          if ts.isEmpty then (s.leave (State.popFrame s.frame inner) inner v).reduct
          else do
            let s ← s.discard v (ts.flatMap Term.values)
            return (s, .block span inner ts)
        | none => do
          let (s, t) ← m.smallStep s inner t
          return (s, .block span inner (if t.value? = some .unit then ts else t :: ts))
    | .ext .. => throw (.stuck term.text)

/-- Makes a step in the first operand that is not a value. -/
def stepFirst (m : Machine) (s : State) (l : Lifetime) : List Term → Run (State × Operands)
  | [] => return (s, .values [])
  | t :: ts =>
    match t.value? with
    | some v => do
      match ← m.stepFirst s l ts with
      | (s, .values vs) => return (s, .values (v :: vs))
      | (s, .residual ts) => return (s, .residual (t :: ts))
    | none => do
      let (s, t) ← m.smallStep s l t
      return (s, .residual (t :: ts))

/-- Makes a step in an operand of a conditional, or goes on with the arm that it takes. -/
def stepConditional (m : Machine) (s : State) (l : Lifetime) (span : Span) (opcode : Nat)
    (equal : Bool) : List Term → Run (State × Term)
  | [lhs, rhs, onTrue, onFalse] =>
    match lhs.value?, rhs.value? with
    | some left, some right => do
      let taken := if State.takesFirst equal left right then onTrue else onFalse
      return (← s.branch left right taken, taken)
    | some _, none => do
      let (s, rhs) ← m.smallStep s l rhs
      return (s, .ext span opcode [lhs, rhs, onTrue, onFalse])
    | none, _ => do
      let (s, lhs) ← m.smallStep s l lhs
      return (s, .ext span opcode [lhs, rhs, onTrue, onFalse])
  | operands => throw (.stuck (Term.ext span opcode operands).text)

end

/-- A term of an extension goes the way of its form. -/
theorem smallStep_form (m : Machine) (s : State) (l : Lifetime) (span : Span) (opcode : Nat)
    (operands : List Term) : m.smallStep s l (.ext span opcode operands) =
      match formOf? m.extensions opcode with
      | some .tuple => do
        match ← m.stepFirst s l operands with
        | (s, .values vs) => (s.tuple vs).reduct
        | (s, .residual ts) => return (s, .ext span opcode ts)
      | some (.conditional equal) => m.stepConditional s l span opcode equal operands
      | none => throw (.stuck (Term.ext span opcode operands).text) := by
  rw [smallStep, offer_form]
  rcases formOf? m.extensions opcode with _ | _ | _ <;> rfl

end Machine

end Ownership
