import Ownership.Lifetime
import Ownership.Place
import Ownership.Value

/-!
# Terms

Programs and their parts. While a term is reduced it also holds the values found
so far, so a term is at once the program and what is left of it.

* `Term.values`: the values held in a term, the temporaries of a reduction.
* `Term.size`: a measure that every step of a reduction makes smaller.
-/

namespace Ownership

/-- A stretch of source text, empty for terms that were not read from a text. -/
structure Span where
  start : Nat := 0
  length : Nat := 0
  deriving DecidableEq, Repr

inductive AccessKind where
  | copy
  | move
  /-- Copies where that is possible and moves otherwise. -/
  | inferred
  deriving DecidableEq, Repr

inductive Term where
  | letMut (span : Span) (name : String) (nameSpan : Span) (init : Term)
  | assign (span : Span) (place : Place) (source : Term)
  | block (span : Span) (lifetime : Lifetime) (statements : List Term)
  | access (span : Span) (kind : AccessKind) (place : Place)
  | borrow (span : Span) (mutable : Bool) (place : Place)
  | box (span : Span) (content : Term)
  | value (span : Span) (value : Value)
  /-- A term whose rules come with an extension of the language. -/
  | ext (span : Span) (opcode : Nat) (operands : List Term)

namespace Term

@[elab_as_elim, induction_eliminator]
theorem induction {motive : Term → Prop}
    (letMut : ∀ s x xs t, motive t → motive (.letMut s x xs t))
    (assign : ∀ s p t, motive t → motive (.assign s p t))
    (block : ∀ s l ts, (∀ t ∈ ts, motive t) → motive (.block s l ts))
    (access : ∀ s k p, motive (.access s k p)) (borrow : ∀ s m p, motive (.borrow s m p))
    (box : ∀ s t, motive t → motive (.box s t)) (value : ∀ s v, motive (.value s v))
    (ext : ∀ s o ts, (∀ t ∈ ts, motive t) → motive (.ext s o ts)) : ∀ t, motive t :=
  Term.rec (motive_1 := motive) (motive_2 := fun ts => ∀ t ∈ ts, motive t)
    letMut assign block access borrow box value ext (fun _ m => absurd m List.not_mem_nil)
    fun _ _ h hs _ m => (List.mem_cons.1 m).elim (fun e => e ▸ h) (hs _)

/-- The term that is the value `v`, and comes from no text. -/
def ofValue (v : Value) : Term := value {} v

def span : Term → Span
  | letMut s .. | assign s .. | block s .. | access s .. | borrow s .. | box s .. | value s ..
  | ext s .. => s

/-- The same term, read from elsewhere. -/
def withSpan (s : Span) : Term → Term
  | letMut _ x xs t => letMut s x xs t
  | assign _ p t => assign s p t
  | block _ l ts => block s l ts
  | access _ k p => access s k p
  | borrow _ m p => borrow s m p
  | box _ t => box s t
  | value _ v => value s v
  | ext _ opcode ts => ext s opcode ts

def value? : Term → Option Value
  | value _ v => some v
  | _ => none

def isValue (t : Term) : Bool := t.value?.isSome

mutual

/-- The values held in the term, the last one first, in front of `rest`. -/
def pushValues : Term → List Value → List Value
  | value _ v, rest => v :: rest
  | letMut _ _ _ t, rest | assign _ _ t, rest | box _ t, rest => t.pushValues rest
  | block _ _ ts, rest | ext _ _ ts, rest => pushAllValues ts rest
  | access .., rest | borrow .., rest => rest

def pushAllValues : List Term → List Value → List Value
  | [], rest => rest
  | t :: ts, rest => pushAllValues ts (t.pushValues rest)

end

def values (t : Term) : List Value := t.pushValues []

mutual

/-- The number of rules that a reduction of the term can still use, counted from above. -/
def size : Term → Nat
  | value .. => 0
  | access .. | borrow .. => 1
  | letMut _ _ _ t | assign _ _ t | box _ t => t.size + 1
  | block _ _ ts | ext _ _ ts => totalSize ts + 1

def totalSize : List Term → Nat
  | [] => 0
  | t :: ts => t.size + 1 + totalSize ts

end

theorem pushAllValues_eq_append {ts : List Term}
    (h : ∀ t ∈ ts, ∀ rest, t.pushValues rest = t.values ++ rest) (rest : List Value) :
    pushAllValues ts rest = ts.reverse.flatMap values ++ rest := by
  induction ts generalizing rest with
  | nil => rfl
  | cons t ts ih =>
    rw [pushAllValues, ih fun u m => h u (List.mem_cons_of_mem _ m), h t List.mem_cons_self]
    simp

theorem pushValues_eq (t : Term) (rest : List Value) : t.pushValues rest = t.values ++ rest := by
  induction t generalizing rest with
  | letMut s x xs t ih => simp only [values, pushValues]; exact ih rest
  | assign s p t ih => simp only [values, pushValues]; exact ih rest
  | box s t ih => simp only [values, pushValues]; exact ih rest
  | access s k p => rfl
  | borrow s m p => rfl
  | value s v => rfl
  | block s l ts ih => simp [values, pushValues, pushAllValues_eq_append ih]
  | ext s o ts ih => simp [values, pushValues, pushAllValues_eq_append ih]

theorem pushAllValues_nil (ts : List Term) : pushAllValues ts [] = ts.reverse.flatMap values := by
  simp [pushAllValues_eq_append fun t _ => pushValues_eq t]

end Term

end Ownership
