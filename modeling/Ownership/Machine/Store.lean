import Ownership.Lifetime
import Ownership.Machine.Fault
import Ownership.Value

/-!
# The store

Cells by address. Addresses are handed out in order and never again, so a cell
that has been freed leaves a hole. A cell is tagged with the lifetime that it was
allocated in; the cells of boxes carry a root.
-/

namespace Ownership

structure Cell where
  lifetime : Lifetime
  value : Value
  deriving DecidableEq

structure Store where
  cells : Array (Option Cell) := #[]
  deriving DecidableEq

namespace Store

/-- What is wrong with an address that holds no cell: it is free again, or it never was taken. -/
def missing (s : Store) (address : Nat) : Fault :=
  if address < s.cells.size then .danglingReference address else .invalidAddress address

def cell (s : Store) (address : Nat) : Except Fault Cell :=
  match s.cells[address]? with
  | some (some cell) => .ok cell
  | _ => .error (s.missing address)

def allocate (s : Store) (l : Lifetime) (v : Value) : Store × Nat :=
  (⟨s.cells.push (some ⟨l, v⟩)⟩, s.cells.size)

def read (s : Store) (r : Reference) : Except Fault Value := do
  let cell ← s.cell r.address
  match cell.value.select? r.path with
  | some v => return v
  | none => throw (.invalidPath r.address)

def write (s : Store) (r : Reference) (v : Value) : Except Fault Store := do
  let cell ← s.cell r.address
  match cell.value.replaceAt? r.path v with
  | some w => return ⟨s.cells.setIfInBounds r.address (some ⟨cell.lifetime, w⟩)⟩
  | none => throw (.invalidPath r.address)

/-- Leaves a hole at `address`. -/
def free (s : Store) (address : Nat) : Store := ⟨s.cells.setIfInBounds address none⟩

/-- The live cells, by address. -/
def live (s : Store) : List Cell := s.cells.toList.filterMap id

def liveCount (s : Store) : Nat := s.live.length

/-- The number of cells ever allocated. -/
def size (s : Store) : Nat := s.cells.size

def isEmpty (s : Store) : Bool := s.cells.isEmpty

end Store

end Ownership
