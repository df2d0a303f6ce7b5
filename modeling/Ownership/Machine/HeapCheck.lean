import Ownership.Machine.Store
import Ownership.Tally

/-!
# Checking the heap

References are counted over the live cells and over the temporaries, the values
that a reduction holds and has not stored yet. None of them may point to a hole.

* `checkAfterDrop`: no cell has two owners. A drop inside a larger reduction does not see all
  temporaries, so it cannot ask for more. The counts are kept in a hash map, so it is open which of
  several shared cells is reported (`HashOrder`).
* `checkHeap`: a cell of a box has one owner, every other cell none. It goes through the cells by
  address.
-/

namespace Ownership

/-- The order in which a hash map from addresses to counts is gone through. It differs from run to
run, so it is a parameter of whatever depends on it. A run ends where it finds a shared cell, so one
order is enough for all the maps of a run. -/
class HashOrder where
  arrange : List (Nat × Nat) → List (Nat × Nat)
  perm : ∀ entries, (arrange entries).Perm entries

namespace HashOrder

/-- By address, the order of choice where one is needed to compute with. -/
instance ascending : HashOrder := ⟨id, fun _ => .refl _⟩

abbrev descending : HashOrder := ⟨List.reverse, List.reverse_perm⟩

end HashOrder

namespace Store

/-- Every reference in the live cells, by address, and then in the temporaries. -/
def held (s : Store) (temporaries : List Value) : List Reference :=
  (s.live.map (·.value) ++ temporaries).flatMap Value.references

/-- The addresses owned by live cells and temporaries, one entry for each owning reference. -/
def owners (s : Store) (temporaries : List Value) : List Nat :=
  ((s.held temporaries).filter (·.owner)).map (·.address)

/-- The addresses that have owners, and how many of them. -/
def ownerCounts (s : Store) (temporaries : List Value) : List (Nat × Nat) :=
  let counts := tally s.size (s.owners temporaries)
  ((List.range s.size).map fun a => (a, counts.getD a 0)).filter fun entry => 0 < entry.2

/-- Fails at the first reference that has no live target. -/
def checkReferences (s : Store) (temporaries : List Value) : Except Fault Unit :=
  (s.held temporaries).forM fun r => do
    let _ ← s.cell r.address

def checkAfterDrop [HashOrder] (s : Store) (temporaries : List Value) : Except Fault Unit := do
  s.checkReferences temporaries
  match (HashOrder.arrange (s.ownerCounts temporaries)).find? fun entry => 1 < entry.2 with
  | some (a, n) => throw (.ownershipInvariant a n)
  | none => return

/-- The number of owners that a cell must have. -/
def ownersDue (c : Cell) : Nat := if c.lifetime.isRoot then 1 else 0

/-- Whether there is a cell at `a` and its number of owners is not the one due. -/
def miscounted (s : Store) (counts : Array Nat) (a : Nat) : Bool :=
  match s.cells[a]? with
  | some (some c) => counts.getD a 0 != ownersDue c
  | _ => false

def checkHeap (s : Store) (temporaries : List Value) : Except Fault Unit := do
  s.checkReferences temporaries
  let counts := tally s.size (s.owners temporaries)
  match (List.range s.size).find? (s.miscounted counts) with
  | some a => throw (.ownershipInvariant a (counts.getD a 0))
  | none => return

end Store

end Ownership
