import Ownership.Place

/-!
# Sets of places

The places that a reference may point to. A set is kept as its sorted list, so
two sets with the same members are equal (`PlaceSet.ext_mem`) and the first
member is the least one.
-/

namespace Ownership

structure PlaceSet where
  toList : List Place
  sorted : Sorted id toList
  deriving DecidableEq

namespace PlaceSet

instance : Membership Place PlaceSet := ⟨fun s p => p ∈ s.toList⟩

instance (p : Place) (s : PlaceSet) : Decidable (p ∈ s) :=
  inferInstanceAs (Decidable (p ∈ s.toList))

theorem mem_def {p : Place} {s : PlaceSet} : p ∈ s ↔ p ∈ s.toList := Iff.rfl

theorem ext_mem {s t : PlaceSet} (h : ∀ p, p ∈ s ↔ p ∈ t) : s = t := by
  have e := Sorted.eq_of_mem_iff s.sorted t.sorted h
  cases s; cases t; cases e; rfl

def empty : PlaceSet := ⟨[], List.Pairwise.nil⟩

def singleton (p : Place) : PlaceSet := ⟨[p], List.pairwise_singleton _ _⟩

def insert (p : Place) (s : PlaceSet) : PlaceSet :=
  ⟨Sorted.insert id p s.toList, Sorted.insert_sorted s.sorted p⟩

def ofList (ps : List Place) : PlaceSet := ps.foldr insert empty

def union (s t : PlaceSet) : PlaceSet := s.toList.foldr insert t

instance : Union PlaceSet := ⟨union⟩

/-- The least member. -/
def first? (s : PlaceSet) : Option Place := s.toList.head?

@[simp] theorem mem_singleton {p q : Place} : p ∈ singleton q ↔ p = q := List.mem_singleton

@[simp] theorem not_mem_empty (p : Place) : p ∉ empty := List.not_mem_nil

@[simp] theorem mem_insert {p q : Place} {s : PlaceSet} : p ∈ insert q s ↔ p = q ∨ p ∈ s := by
  simp only [mem_def, insert, Sorted.mem_insert s.sorted, id]
  by_cases e : p = q <;> simp [e]

theorem mem_foldr_insert {p : Place} {ps : List Place} {s : PlaceSet} :
    p ∈ ps.foldr insert s ↔ p ∈ ps ∨ p ∈ s := by
  induction ps with
  | nil => simp
  | cons q ps ih => simp [ih, or_assoc]

@[simp] theorem mem_ofList {p : Place} {ps : List Place} : p ∈ ofList ps ↔ p ∈ ps := by
  simp [ofList, mem_foldr_insert]

@[simp] theorem mem_union {p : Place} {s t : PlaceSet} : p ∈ s ∪ t ↔ p ∈ s ∨ p ∈ t :=
  mem_foldr_insert

end PlaceSet

end Ownership
