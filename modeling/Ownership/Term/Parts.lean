import Ownership.Term.Basic

/-!
# What stands in a term

What can be read off a term before it is reduced: the lifetimes of its blocks and how
they are nested, the opcodes in it, the variables that it declares itself and all that
it names, and the literals in it.
-/

namespace Ownership

/-- The place is reached by following references only. -/
def Place.straight (p : Place) : Bool := p.path.all (· == .deref)

namespace Term

mutual

/-- The lifetimes of all blocks in the term. -/
def lifetimes : Term → List Lifetime
  | block _ inner ts => inner :: allLifetimes ts
  | letMut _ _ _ t | assign _ _ t | box _ t => t.lifetimes
  | ext _ _ ts => allLifetimes ts
  | access .. | borrow .. | value .. => []

def allLifetimes : List Term → List Lifetime
  | [] => []
  | t :: ts => t.lifetimes ++ allLifetimes ts

end

theorem mem_allLifetimes {k : Lifetime} {ts : List Term} :
    k ∈ allLifetimes ts ↔ ∃ t ∈ ts, k ∈ t.lifetimes := by
  induction ts with
  | nil => simp [allLifetimes]
  | cons t ts ih => simp [allLifetimes, ih]

mutual

/-- The opcodes of all terms of extensions in the term. -/
def opcodes : Term → List Nat
  | ext _ o ts => o :: allOpcodes ts
  | letMut _ _ _ t | assign _ _ t | box _ t => t.opcodes
  | block _ _ ts => allOpcodes ts
  | access .. | borrow .. | value .. => []

def allOpcodes : List Term → List Nat
  | [] => []
  | t :: ts => t.opcodes ++ allOpcodes ts

end

theorem mem_allOpcodes {o : Nat} {ts : List Term} :
    o ∈ allOpcodes ts ↔ ∃ t ∈ ts, o ∈ t.opcodes := by
  induction ts with
  | nil => simp [allOpcodes]
  | cons t ts ih => simp [allOpcodes, ih]

mutual

/-- The variables that the term declares where it stands, outside of all blocks in it. -/
def declares : Term → List String
  | letMut _ x _ t => x :: t.declares
  | assign _ _ t | box _ t => t.declares
  | ext _ _ ts => allDeclares ts
  | block .. | access .. | borrow .. | value .. => []

def allDeclares : List Term → List String
  | [] => []
  | t :: ts => t.declares ++ allDeclares ts

end

theorem mem_allDeclares {x : String} {ts : List Term} :
    x ∈ allDeclares ts ↔ ∃ t ∈ ts, x ∈ t.declares := by
  induction ts with
  | nil => simp [allDeclares]
  | cons t ts ih => simp [allDeclares, ih]

mutual

/-- The variables that are named in the term, those of places included. -/
def names : Term → List String
  | letMut _ x _ t => x :: t.names
  | assign _ p t => p.name :: t.names
  | access _ _ p | borrow _ _ p => [p.name]
  | box _ t => t.names
  | block _ _ ts | ext _ _ ts => allNames ts
  | value .. => []

def allNames : List Term → List String
  | [] => []
  | t :: ts => t.names ++ allNames ts

end

theorem mem_allNames {x : String} {ts : List Term} : x ∈ allNames ts ↔ ∃ t ∈ ts, x ∈ t.names := by
  induction ts with
  | nil => simp [allNames]
  | cons t ts ih => simp [allNames, ih]

mutual

/-- Every block of a term under `l` is opened in the lifetime around it. -/
def Nested (l : Lifetime) : Term → Prop
  | block _ inner ts => inner.parent? = some l ∧ AllNested inner ts
  | letMut _ _ _ t | assign _ _ t | box _ t => t.Nested l
  | ext _ _ ts => AllNested l ts
  | access .. | borrow .. | value .. => True

def AllNested (l : Lifetime) : List Term → Prop
  | [] => True
  | t :: ts => t.Nested l ∧ AllNested l ts

end

theorem allNested_iff {l : Lifetime} {ts : List Term} :
    AllNested l ts ↔ ∀ t ∈ ts, t.Nested l := by
  induction ts with
  | nil => simp [AllNested]
  | cons t ts ih => simp [AllNested, ih]

mutual

/-- No place in the term is or lies in a component. -/
def straight : Term → Bool
  | letMut _ _ _ t | box _ t => t.straight
  | assign _ p t => p.straight && t.straight
  | access _ _ p | borrow _ _ p => p.straight
  | block _ _ ts | ext _ _ ts => allStraight ts
  | value .. => true

def allStraight : List Term → Bool
  | [] => true
  | t :: ts => t.straight && allStraight ts

end

mutual

/-- The term is an expression in the fragment without components and explicit borrows behind
references, or a statement if `statement` is set: variables are declared and assigned by statements
of blocks only, and a borrow is of a variable or of what it refers to. -/
def simple (statement : Bool) : Term → Bool
  | letMut _ _ _ t => statement && t.simple false
  | assign _ p t => statement && p.straight && t.simple false
  | block _ _ ts => allSimple true ts
  | access _ _ p => p.straight
  | borrow _ _ p => p.straight && p.path.length ≤ 1
  | box _ t => t.simple false
  | ext _ _ ts => allSimple false ts
  | value .. => true

def allSimple (statement : Bool) : List Term → Bool
  | [] => true
  | t :: ts => t.simple statement && allSimple statement ts

end

theorem allSimple_iff {statement : Bool} {ts : List Term} :
    allSimple statement ts = true ↔ ∀ t ∈ ts, t.simple statement = true := by
  induction ts with
  | nil => simp [allSimple]
  | cons t ts ih => simp [allSimple, ih]

theorem allStraight_iff {ts : List Term} : allStraight ts = true ↔ ∀ t ∈ ts, t.straight = true := by
  induction ts with
  | nil => simp [allStraight]
  | cons t ts ih => simp [allStraight, ih]

theorem straight_of_simple {t : Term} {statement : Bool} (h : t.simple statement = true) :
    t.straight = true := by
  induction t generalizing statement with
  | letMut s x xs t ih =>
    rw [simple, Bool.and_eq_true] at h
    exact ih h.2
  | assign s p t ih =>
    simp only [simple, Bool.and_eq_true] at h
    rw [straight, h.1.2, ih h.2]
    rfl
  | block s l ts ih => exact allStraight_iff.2 fun t ht => ih t ht (allSimple_iff.1 h t ht)
  | access => exact h
  | borrow s m p =>
    rw [simple, Bool.and_eq_true] at h
    exact h.1
  | box s t ih => exact ih h
  | value => rfl
  | ext s o ts ih => exact allStraight_iff.2 fun t ht => ih t ht (allSimple_iff.1 h t ht)

/-- An expression declares nothing outside of the blocks in it. -/
theorem declares_of_simple {t : Term} (h : t.simple false = true) : t.declares = [] := by
  induction t with
  | letMut => cases h
  | assign => cases h
  | box s t ih => exact ih h
  | ext s o ts ih =>
    refine List.eq_nil_iff_forall_not_mem.2 fun x hx => ?_
    obtain ⟨t, ht, hx⟩ := mem_allDeclares.1 hx
    rw [ih t ht (allSimple_iff.1 h t ht)] at hx
    cases hx
  | _ => rfl

theorem values_block (sp : Span) (inner : Lifetime) (ts : List Term) :
    (block sp inner ts).values = ts.reverse.flatMap values := by
  simp only [values, pushValues, pushAllValues_nil]

theorem values_ext (sp : Span) (o : Nat) (ts : List Term) :
    (ext sp o ts).values = ts.reverse.flatMap values := by
  simp only [values, pushValues, pushAllValues_nil]

/-- Every literal in the term is an integer. -/
def Plain (t : Term) : Prop := ∀ v ∈ t.values, ∃ n, v = .int n

instance (t : Term) : Decidable t.Plain :=
  decidable_of_iff (t.values.all fun v => v matches .int _) <| by
    rw [List.all_eq_true]
    refine forall_congr' fun v => imp_congr_right fun _ => ?_
    cases v <;> simp

namespace Plain

theorem of_block {sp : Span} {inner : Lifetime} {ts : List Term} (h : (block sp inner ts).Plain)
    {t : Term} (ht : t ∈ ts) : t.Plain := fun v hv =>
  h v (by rw [values_block]; exact List.mem_flatMap.2 ⟨t, List.mem_reverse.2 ht, hv⟩)

theorem of_ext {sp : Span} {o : Nat} {ts : List Term} (h : (ext sp o ts).Plain) {t : Term}
    (ht : t ∈ ts) : t.Plain := fun v hv =>
  h v (by rw [values_ext]; exact List.mem_flatMap.2 ⟨t, List.mem_reverse.2 ht, hv⟩)

end Plain

end Term

end Ownership
