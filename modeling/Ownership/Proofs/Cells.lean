import Ownership.Machine.HeapCheck
import Ownership.Machine.Drop

/-!
# Reading and changing cells

The look-up `Store.cell?` determines a store up to its size. What a change of the
store does is told by what it does to look-ups: `cell?_put`, `cell?_free`,
`cell?_allocate`, `cell?_freeCellsOf`.
-/

namespace Ownership

namespace Store

variable {s s' : Store} {a b : Nat} {c : Cell} {r : Reference} {v : Value} {l : Lifetime}

/-- The live cell at an address. -/
def cell? (s : Store) (a : Nat) : Option Cell := s.cells[a]?.join

/-- The store with another cell at `a`. -/
def put (s : Store) (a : Nat) (c : Cell) : Store := ⟨s.cells.setIfInBounds a (some c)⟩

theorem cell?_eq_some : s.cell? a = some c ↔ s.cells[a]? = some (some c) := by
  simp [cell?, Option.join_eq_some_iff]

theorem cell_ok : s.cell a = .ok c ↔ s.cell? a = some c := by
  rw [cell?_eq_some, cell]
  split
  · rename_i h
    rw [h]
    simp
  · rename_i h
    constructor
    · intro e
      cases e
    · intro e
      exact absurd e (h c)

theorem cell_error {e : Fault} : s.cell a = .error e ↔ s.cell? a = none ∧ e = s.missing a := by
  cases hc : s.cell? a with
  | some c => simp [cell_ok.2 hc]
  | none =>
    have hn : ∀ c, s.cells[a]? ≠ some (some c) := by
      intro c hs
      rw [cell?_eq_some.2 hs] at hc
      cases hc
    rw [cell]
    split
    · exact absurd ‹_› (hn _)
    · simp [eq_comm]

theorem lt_of_cell? (h : s.cell? a = some c) : a < s.cells.size := by
  rw [cell?_eq_some] at h
  exact (Array.getElem?_eq_some_iff.1 h).1

theorem read_ok : s.read r = .ok v ↔
    ∃ c, s.cell? r.address = some c ∧ c.value.select? r.path = some v := by
  rw [read, Traced.bind_eq_ok]
  refine exists_congr fun c => ?_
  rw [cell_ok]
  refine and_congr_right fun _ => ?_
  cases h : c.value.select? r.path with
  | none => simp [throw, throwThe, MonadExceptOf.throw]
  | some w => simp [pure, Except.pure]

theorem write_ok : s.write r v = .ok s' ↔
    ∃ c w, s.cell? r.address = some c ∧ c.value.replaceAt? r.path v = some w ∧
      s' = s.put r.address ⟨c.lifetime, w⟩ := by
  rw [write, Traced.bind_eq_ok]
  refine exists_congr fun c => ?_
  rw [cell_ok]
  cases h : c.value.replaceAt? r.path v with
  | none => simp [throw, throwThe, MonadExceptOf.throw]
  | some w => simp [pure, Except.pure, put, eq_comm]

theorem mem_live : c ∈ s.live ↔ ∃ a, s.cell? a = some c := by
  rw [live, List.mem_filterMap]
  simp only [id_eq, exists_eq_right, List.mem_iff_getElem?, Array.getElem?_toList, cell?_eq_some]

/-! ### Look-ups after a change -/

theorem cell?_put (h : s.cell? a = some c) (d : Cell) (b : Nat) :
    (s.put a d).cell? b = if b = a then some d else s.cell? b := by
  have := lt_of_cell? h
  simp only [cell?, put, Array.getElem?_setIfInBounds]
  by_cases e : a = b
  · subst e
    simp [this]
  · simp [e, Ne.symm e]

theorem cell?_free (s : Store) (a b : Nat) :
    (s.free a).cell? b = if b = a then none else s.cell? b := by
  simp only [cell?, free, Array.getElem?_setIfInBounds]
  by_cases e : a = b
  · subst e
    by_cases h : a < s.cells.size <;> simp [h]
  · simp [e, Ne.symm e]

theorem cell?_allocate (s : Store) (l : Lifetime) (v : Value) (b : Nat) :
    (s.allocate l v).1.cell? b = if b = s.cells.size then some ⟨l, v⟩ else s.cell? b := by
  simp only [cell?, allocate, Array.getElem?_push]
  by_cases e : b = s.cells.size <;> simp [e]

theorem cell?_freeCellsOf (s : Store) (l : Lifetime) (b : Nat) :
    (s.freeCellsOf l).cell? b = (s.cell? b).filter (·.lifetime != l) := by
  simp only [cell?, freeCellsOf, Array.getElem?_map]
  cases s.cells[b]? with
  | none => rfl
  | some c => rfl

theorem cell?_free_eq_some : (s.free a).cell? b = some c ↔ b ≠ a ∧ s.cell? b = some c := by
  rw [cell?_free]
  split
  · rename_i h
    simp [h]
  · rename_i h
    simp [h]

theorem cell?_freeCellsOf_eq_some :
    (s.freeCellsOf l).cell? b = some c ↔ s.cell? b = some c ∧ c.lifetime ≠ l := by
  rw [cell?_freeCellsOf, Option.filter_eq_some_iff, bne_iff_ne]

@[simp] theorem size_put (s : Store) (a : Nat) (c : Cell) : (s.put a c).size = s.size := by
  simp [size, put]

@[simp] theorem size_free (s : Store) (a : Nat) : (s.free a).size = s.size := by
  simp [size, free]

@[simp] theorem size_allocate (s : Store) (l : Lifetime) (v : Value) :
    (s.allocate l v).1.size = s.size + 1 := by
  simp [size, allocate]

@[simp] theorem size_freeCellsOf (s : Store) (l : Lifetime) :
    (s.freeCellsOf l).size = s.size := by
  simp [size, freeCellsOf]

@[simp] theorem cell?_size (s : Store) : s.cell? s.cells.size = none := by
  simp [cell?]

end Store

end Ownership
