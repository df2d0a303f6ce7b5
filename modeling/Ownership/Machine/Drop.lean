import Ownership.Machine.Event
import Ownership.Machine.HeapCheck
import Ownership.Traced

/-!
# Dropping values

A value that is given up frees the cells that it owns, and these free what their
contents own, and so on. What is owned last is freed first.
-/

namespace Ownership

abbrev Run (α : Type) := Traced Event Fault α

namespace Store

/-- Frees the cells at the addresses of `work`, and whatever their contents own, and counts
them. At most `n` cells are live, so when `n` is used up there is no cell left to free. -/
def release : Nat → Store → List Nat → Except Fault (Store × Nat)
  | _, s, [] => .ok (s, 0)
  | 0, s, a :: _ => .error (s.missing a)
  | n + 1, s, a :: work => do
    let cell ← s.cell a
    let (s, freed) ← release n (s.free a) (cell.value.owned.reverse ++ work)
    return (s, freed + 1)

/-- Frees all that the values own. -/
def finalize (s : Store) (vs : List Value) : Except Fault (Store × Nat) :=
  s.release s.liveCount (vs.flatMap Value.owned).reverse

/-- Gives up the value `v`. -/
def dropValue [HashOrder] (s : Store) (v : Value) (temporaries : List Value) : Run Store := do
  let (s, freed) ← Traced.within "finalize" (s.finalize [v])
  if 0 < freed then Traced.note (.droppedValue freed)
  s.checkAfterDrop temporaries
  return s

/-- The live cells of one lifetime, by address. -/
def cellsOf (s : Store) (l : Lifetime) : List Cell := s.live.filter (·.lifetime == l)

/-- The store without the cells of one lifetime. -/
def freeCellsOf (s : Store) (l : Lifetime) : Store :=
  ⟨s.cells.map fun c => c.filter (·.lifetime != l)⟩

/-- Ends the lifetime `l`: gives up its cells and all that their contents own. -/
def dropLifetime [HashOrder] (s : Store) (l : Lifetime) (temporaries : List Value) :
    Run Store := do
  let cells := s.cellsOf l
  let (s, freed) ← Traced.within "finalize" ((s.freeCellsOf l).finalize (cells.map (·.value)))
  Traced.note (.droppedLifetime l (cells.length + freed))
  s.checkAfterDrop temporaries
  return s

end Store

end Ownership
