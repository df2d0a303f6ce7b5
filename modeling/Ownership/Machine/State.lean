import Ownership.Machine.Drop
import Ownership.NameMap

/-!
# States

A state is the store together with the bindings of the variables to locations in it.
-/

namespace Ownership

structure Binding where
  location : Reference
  lifetime : Lifetime
  deriving DecidableEq, Repr

structure State where
  frame : NameMap Binding := .empty
  store : Store := {}
  deriving DecidableEq

namespace State

/-- Forgets the bindings made in `l`. -/
def popFrame (frame : NameMap Binding) (l : Lifetime) : NameMap Binding :=
  frame.filter fun _ b => b.lifetime != l

/-- One more selector from a location: a dereference goes where the reference stored there
points to. -/
def follow (s : Store) (location : Reference) : Selector → Except Fault Reference
  | .index i => .ok (location.index i)
  | .deref => do
    match ← s.read location with
    | .ref target => return target.toBorrow
    | .undefined => throw (.undefinedRead location.address)
    | v => throw (.expectedReference v.text)

/-- The location that a place denotes. -/
def locate (s : State) (p : Place) : Except Fault Reference := do
  match s.frame.get? p.name with
  | none => throw (.unboundVariable p.name)
  | some b => p.path.foldlM (follow s.store) b.location

def read (s : State) (p : Place) : Except Fault Value := do
  s.store.read (← s.locate p)

/-- Allocates a cell for the variable `name` and binds it. -/
def declare (s : State) (name : String) (l : Lifetime) (v : Value) : State :=
  let (store, address) := s.store.allocate l v
  ⟨s.frame.insert name ⟨.borrowed address, l⟩, store⟩

end State

end Ownership
