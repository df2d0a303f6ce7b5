import Ownership.Machine.BigStep
import Ownership.Machine.SmallStep

/-!
# Evaluation

Repeats the steps of a machine until a value is left. Every step on a term that is
not a value makes it smaller, so the size of the term bounds the number of steps.

* `reduce`: one step, small or big.
* `eval`: all steps, as big steps evaluate the parts of a term.
* `evaluate`: all steps, with the heap checked after each of them if the machine says so.
* `trace`: small steps, with what can be said of the state after each of them.
-/

namespace Ownership

namespace Machine

variable [HashOrder]

def reduce (m : Machine) (s : State) (l : Lifetime) (t : Term) : Run (State × Term) :=
  match m.strategy with
  | .bigStep => m.bigStep s l t
  | .smallStep => m.smallStep s l t

/-- Goes on for up to `n` steps, without a check. The parts of a term are evaluated so in a big
step, and there one step is enough (`eval_bigStep`). -/
def eval (m : Machine) (l : Lifetime) : Nat → State → Term → Run (State × Value)
  | n, s, t =>
    match t.value?, n with
    | some v, _ => return (s, v)
    | none, 0 => throw .unfinished
    | none, n + 1 => do
      let (s, t) ← m.reduce s l t
      eval m l n s t

/-- Reduces operands from left to right: all of them to values by big steps, or the first that
is not a value by one small step. -/
def reduceOperands (m : Machine) (s : State) (l : Lifetime) (ts : List Term) :
    Run (State × Operands) :=
  match m.strategy with
  | .bigStep => do
    let (s, vs) ← m.bigStepAll s l ts
    return (s, .values vs)
  | .smallStep => m.stepFirst s l ts

/-- The step number `steps` of an evaluation, and the check after it. -/
def checkedStep (m : Machine) (s : State) (l : Lifetime) (t : Term) (steps : Nat) :
    Run (State × Term) := do
  let (s, u) ← (m.reduce s l t).noteFailure fun e => .faulted e steps t
  if m.checkInvariants then
    Traced.noteFailure (fun e => .heapBroken e u) (liftM (s.store.checkHeap u.values))
  return (s, u)

/-- Goes on for up to `n` steps, after `steps` steps have been made. -/
def evaluateFrom (m : Machine) (l : Lifetime) : Nat → Nat → State → Term → Run (State × Value)
  | n, steps, s, t =>
    match t.value?, n with
    | some v, _ => do
      .note (.evaluated steps v)
      return (s, v)
    | none, 0 => throw .unfinished
    | none, n + 1 => do
      let (s, t) ← m.checkedStep s l t steps
      evaluateFrom m l n (steps + 1) s t

/-- Reduces a term to a value. -/
def evaluate (m : Machine) (s : State) (l : Lifetime) (t : Term) : Run (State × Value) :=
  m.evaluateFrom l t.size 0 s t

end Machine

/-! ### Traces -/

/-- Where a small step leads, or why it fails. -/
inductive TraceStep where
  | went (state : State) (term : Term)
  | failed (fault : Fault)

/-- What is wrong with the heap of a state while `t` is left to reduce. -/
def State.heapFault? (s : State) (t : Term) : Option Fault :=
  match s.store.checkHeap t.values with
  | .ok () => none
  | .error e => some e

/-- A run of small steps: the steps, and the term and the state that they end with. -/
structure Trace where
  steps : List TraceStep
  term : Term
  state : State

/-- Up to `n` small steps, fewer if a value is reached or a step fails. -/
def Machine.trace [HashOrder] (m : Machine) (l : Lifetime) :
    Nat → State → Term → Traced Event Empty Trace
  | 0, s, t => return ⟨[], t, s⟩
  | n + 1, s, t =>
    if t.isValue then return ⟨[], t, s⟩
    else
      let step := m.smallStep s l t
      match step.result with
      | .error e => ⟨step.events, .ok ⟨[.failed e], t, s⟩⟩
      | .ok (s, t) =>
        let rest := m.trace l n s t
        ⟨step.events ++ rest.events,
          rest.outcome.map fun r => { r with steps := .went s t :: r.steps }⟩

end Ownership
