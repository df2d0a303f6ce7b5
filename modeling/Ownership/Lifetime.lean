/-!
# Lifetimes

A lifetime is a scope in a tree of scopes. The root of a tree stands for the
heap, every other node for a block. A lifetime carries its own identity and the
chain of scopes around it, so containment needs no table.
-/

namespace Ownership

/-- A scope: the root of a tree, or a scope inside another one. -/
inductive Lifetime where
  | root (id : Nat)
  | inside (id : Nat) (parent : Lifetime)
  deriving DecidableEq, Repr

namespace Lifetime

/-- The identity of the scope, apart from where it lies. -/
def id : Lifetime → Nat
  | root i => i
  | inside i _ => i

def parent? : Lifetime → Option Lifetime
  | root _ => none
  | inside _ p => some p

def isRoot : Lifetime → Bool
  | root _ => true
  | inside _ _ => false

/-- The root of the tree that the scope lies in. -/
def global : Lifetime → Lifetime
  | root i => root i
  | inside _ p => p.global

/-- The scope and those around it, innermost first. -/
def enclosing : Lifetime → List Lifetime
  | root i => [root i]
  | inside i p => inside i p :: p.enclosing

/-- Whether the scope is contained in `o`: `o` is the scope itself or lies around it. -/
def within : Lifetime → Lifetime → Bool
  | root i, o => root i == o
  | inside i p, o => inside i p == o || p.within o

/-- Roots are starred, inner scopes carry an `l`. -/
def text : Lifetime → String
  | root i => "'*" ++ toString i
  | inside i _ => "'l" ++ toString i

@[simp] theorem within_self (l : Lifetime) : l.within l = true := by
  cases l <;> simp [within]

theorem within_trans {l k o : Lifetime} (h : l.within k = true) (h' : k.within o = true) :
    l.within o = true := by
  induction l with
  | root i =>
    simp only [within, beq_iff_eq] at h
    rwa [← h] at h'
  | inside i p ih =>
    simp only [within, Bool.or_eq_true, beq_iff_eq] at h
    rcases h with rfl | h
    · exact h'
    · simp [within, ih h]

theorem length_enclosing {l o : Lifetime} (h : l.within o = true) :
    o.enclosing.length ≤ l.enclosing.length := by
  induction l with
  | root i =>
    simp only [within, beq_iff_eq] at h
    subst h
    exact Nat.le_refl _
  | inside i p ih =>
    simp only [within, Bool.or_eq_true, beq_iff_eq] at h
    rcases h with rfl | h
    · exact Nat.le_refl _
    · exact Nat.le_succ_of_le (ih h)

theorem eq_inside {l inner : Lifetime} (h : inner.parent? = some l) : ∃ i, inner = inside i l := by
  cases inner with
  | root i => cases h
  | inside i p =>
    cases h
    exact ⟨i, rfl⟩

/-- A scope does not lie in those that are opened in it. -/
theorem not_within_inside (i : Nat) (l : Lifetime) : l.within (inside i l) = false := by
  cases h : l.within (inside i l) with
  | false => rfl
  | true =>
    have := length_enclosing h
    simp only [enclosing, List.length_cons] at this
    omega

@[simp] theorem global_isRoot (l : Lifetime) : l.global.isRoot = true := by
  induction l with
  | root i => rfl
  | inside i p ih => simpa [global] using ih

theorem within_global (l : Lifetime) : l.within l.global = true := by
  induction l with
  | root i => exact within_self _
  | inside i p ih => simp [within, global, ih]

end Lifetime

/-- The lifetimes handed out so far, in order. The identity of each is its place in
the list, so no two of them are equal. -/
structure Lifetimes where
  list : List Lifetime := []

namespace Lifetimes

def get? (ls : Lifetimes) (i : Nat) : Option Lifetime := ls.list[i]?

/-- The identity that the next lifetime gets. -/
def next (ls : Lifetimes) : Nat := ls.list.length

/-- Opens a new tree. -/
def newRoot (ls : Lifetimes) : Lifetime × Lifetimes :=
  let l := .root ls.next
  (l, ⟨ls.list ++ [l]⟩)

/-- A new scope inside `p`. -/
def freshWithin (ls : Lifetimes) (p : Lifetime) : Lifetime × Lifetimes :=
  let l := .inside ls.next p
  (l, ⟨ls.list ++ [l]⟩)

end Lifetimes

end Ownership
