import Ownership.Extension
import Ownership.Machine.State

/-!
# The rules of reduction

What happens once the operands of a term are values. Both strategies use these
rules; they differ in how they get to the values.
-/

namespace Ownership

inductive Strategy where
  /-- Reduces a term to a value at once. -/
  | bigStep
  /-- Uses one rule at a time and returns what is left of the term. -/
  | smallStep
  deriving DecidableEq, Repr

structure Machine where
  strategy : Strategy
  /-- Whether the heap is checked after every step of an evaluation. -/
  checkInvariants : Bool := true
  extensions : List Extension := []

/-- What is left of a term after a rule has made a value of it. -/
def Run.reduct (x : Run (State × Value)) : Run (State × Term) := do
  let (s, v) ← x
  return (s, .ofValue v)

namespace State

/-- Reads a place. A move leaves nothing behind; an inferred access moves exactly if the value
owns something. -/
def access (s : State) (kind : AccessKind) (p : Place) : Run (State × Value) := do
  let location ← s.locate p
  let v ← s.store.read location
  if v = .undefined then throw (.undefinedRead location.address)
  let moving := match kind with
    | .copy => false
    | .move => true
    | .inferred => v.containsOwner
  if moving then
    .note (.moved p v)
    let store ← s.store.write location .undefined
    return ({ s with store }, v)
  .note (.copied p v)
  return (s, v)

/-- A reference to a place. -/
def borrow (s : State) (p : Place) : Run Value := do
  let location ← s.locate p
  .note (.borrowed p location)
  return .ref location.toBorrow

/-- Puts a value into a new cell of the heap that `l` lies in. -/
def box (s : State) (l : Lifetime) (v : Value) : Run (State × Value) := do
  let (store, address) := s.store.allocate l.global v
  .note (.boxed address)
  return ({ s with store }, .ref (.owned address))

def bind (s : State) (name : String) (l : Lifetime) (v : Value) : Run (State × Value) := do
  .note (.declared name v)
  return (s.declare name l v, .unit)

/-- Writes a value to a place. The old value has left the cell before it is dropped. -/
def assign [HashOrder] (s : State) (p : Place) (v : Value) : Run (State × Value) := do
  let location ← s.locate p
  let old ← s.store.read location
  .note (.assigned p v old)
  let store ← s.store.write location v
  let store ← store.dropValue old []
  return ({ s with store }, .unit)

def tuple (s : State) (vs : List Value) : Run (State × Value) := do
  .note (.tupled vs.length)
  return (s, .compound vs)

/-- Whether a comparison of these values takes the first arm. -/
def takesFirst (equal : Bool) (left right : Value) : Bool := (left == right) == equal

/-- Drops the values that a conditional has compared, before it goes on with the arm `taken`. -/
def branch [HashOrder] (s : State) (left right : Value) (taken : Term) : Run State := do
  .note (.branched left right taken)
  let store ← s.store.dropValue left [right]
  let store ← store.dropValue right []
  return { s with store }

/-- Gives up a value that nothing uses. -/
def discard [HashOrder] (s : State) (v : Value) (temporaries : List Value) : Run State := do
  let store ← s.store.dropValue v temporaries
  return { s with store }

/-- Leaves the block of lifetime `inner` with a value, and goes on with `frame`. -/
def leave [HashOrder] (s : State) (frame : NameMap Binding) (inner : Lifetime) (v : Value) :
    Run (State × Value) := do
  let store ← s.store.dropLifetime inner [v]
  return (⟨frame, store⟩, v)

end State

end Ownership
