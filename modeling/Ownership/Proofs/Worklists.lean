import Mathlib.Algebra.Ring.Nat
import Ownership.Term.Parts

/-!
# Worklists

What is in a value or in a term can be found with a stack instead of by recursion on its parts
(`Worklist.run`): the part on top is taken off, what it gives by itself is put out, and its own
parts are pushed. What has been put out, followed by all that is still to be found in the parts on
the stack, is the same in every turn, and in the end the stack is empty. Parts that are pushed in
their order are visited in the opposite one.

* `Worklist.run_eq`: **a worklist finds what the parts give**, in the order in which it visits them.
* `worklists_complete`: **the references in a value and the values in a term** are those that a
  recursion on the parts collects, each as often as it occurs.
-/

namespace Ownership

/-- **A way to visit what an `α` consists of**: what it gives by itself, and its parts in the order
in which they are pushed, which all together are smaller than it. -/
structure Worklist (α β : Type) [SizeOf α] where
  found : α → List β
  pushed : α → List α
  smaller : ∀ a, ((pushed a).map sizeOf).sum < sizeOf a

namespace Worklist

variable {α β : Type} [SizeOf α]

/-- Pushes the parts one after the other, so that the last one is on top. -/
def push (parts stack : List α) : List α := parts.reverse ++ stack

theorem sum_push (parts stack : List α) :
    ((push parts stack).map sizeOf).sum = (parts.map sizeOf).sum + (stack.map sizeOf).sum := by
  rw [push, List.map_append, List.map_reverse, List.sum_append, List.sum_reverse]

/-- Visits what is on the stack, from its top on, and puts what is found behind `out`. -/
def run (w : Worklist α β) : (stack : List α) → (out : List β) → List β
  | [], out => out
  | a :: stack, out => w.run (push (w.pushed a) stack) (out ++ w.found a)
termination_by stack => (stack.map sizeOf).sum
decreasing_by
  have hlt := w.smaller a
  rw [sum_push, List.map_cons, List.sum_cons]
  omega

/-- **A worklist finds what the parts give**: what has been put out, followed by what is still to be
found on the stack, stays the same from turn to turn. -/
theorem run_eq (w : Worklist α β) {f : α → List β}
    (hf : ∀ a, f a = w.found a ++ (w.pushed a).reverse.flatMap f) (stack : List α) (out : List β) :
    w.run stack out = out ++ stack.flatMap f := by
  induction stack, out using run.induct w with
  | case1 out => rw [run, List.flatMap_nil, List.append_nil]
  | case2 a stack out ih =>
    rw [run, ih, push, List.flatMap_append, List.flatMap_cons, hf a, List.append_assoc,
      List.append_assoc]

end Worklist

theorem sum_map_sizeOf_le {α : Type} [SizeOf α] (l : List α) : (l.map sizeOf).sum ≤ sizeOf l := by
  induction l with
  | nil => simp
  | cons a l ih =>
    simp only [List.map_cons, List.sum_cons, List.cons.sizeOf_spec]
    omega

namespace Value

/-- The components are pushed from right to left, so the first one comes out on top. -/
def worklist : Worklist Value Reference where
  found
    | ref r => [r]
    | unit | int _ | compound _ | undefined => []
  pushed
    | compound vs => vs.reverse
    | unit | int _ | ref _ | undefined => []
  smaller v := by
    cases v with
    | compound vs =>
      have hle := sum_map_sizeOf_le vs
      simp only [List.map_reverse, List.sum_reverse, compound.sizeOf_spec]
      omega
    | _ => simp +arith

mutual

/-- The references in the value, component by component. -/
def collect : Value → List Reference
  | ref r => [r]
  | compound vs => collectAll vs
  | unit | int _ | undefined => []

def collectAll : List Value → List Reference
  | [] => []
  | v :: vs => v.collect ++ collectAll vs

end

theorem references_eq_collect (v : Value) : v.references = v.collect := by
  induction v with
  | compound vs ih =>
    rw [references_compound, collect]
    induction vs with
    | nil => rfl
    | cons v vs ihs =>
      rw [List.flatMap_cons, collectAll, ih v List.mem_cons_self,
        ihs fun u hu => ih u (List.mem_cons_of_mem v hu)]
  | _ => rfl

/-- The worklist finds the references in the value. -/
theorem run_worklist (v : Value) : worklist.run [v] [] = v.references := by
  have hparts : ∀ v : Value,
      v.references = worklist.found v ++ (worklist.pushed v).reverse.flatMap references := by
    intro v
    cases v with
    | compound vs => simp [worklist, references_compound]
    | _ => rfl
  rw [worklist.run_eq hparts, List.nil_append, List.flatMap_singleton]

end Value

namespace Term

/-- The parts are pushed in the order of the term, so the last one comes out on top. -/
def worklist : Worklist Term Value where
  found
    | value _ v => [v]
    | letMut .. | assign .. | block .. | access .. | borrow .. | box .. | ext .. => []
  pushed
    | letMut _ _ _ t | assign _ _ t | box _ t => [t]
    | block _ _ ts | ext _ _ ts => ts
    | access .. | borrow .. | value .. => []
  smaller t := by
    cases t with
    | block s l ts =>
      have hle := sum_map_sizeOf_le ts
      simp only [block.sizeOf_spec]
      omega
    | ext s o ts =>
      have hle := sum_map_sizeOf_le ts
      simp only [ext.sizeOf_spec]
      omega
    | _ => simp +arith

mutual

/-- The values in the term, part by part. -/
def collect : Term → List Value
  | value _ v => [v]
  | letMut _ _ _ t | assign _ _ t | box _ t => t.collect
  | block _ _ ts | ext _ _ ts => collectAll ts
  | access .. | borrow .. => []

def collectAll : List Term → List Value
  | [] => []
  | t :: ts => t.collect ++ collectAll ts

end

theorem reverse_collectAll {ts : List Term} (h : ∀ t ∈ ts, t.values = t.collect.reverse) :
    ts.reverse.flatMap values = (collectAll ts).reverse := by
  induction ts with
  | nil => rfl
  | cons t ts ih =>
    rw [List.reverse_cons, List.flatMap_append, List.flatMap_singleton, collectAll,
      List.reverse_append, ih fun u hu => h u (List.mem_cons_of_mem t hu), h t List.mem_cons_self]

/-- The last value in the term comes first. -/
theorem values_eq_reverse (t : Term) : t.values = t.collect.reverse := by
  induction t with
  | letMut s x xs t ih => exact ih
  | assign s p t ih => exact ih
  | box s t ih => exact ih
  | block s l ts ih => rw [values_block, collect, reverse_collectAll ih]
  | ext s o ts ih => rw [values_ext, collect, reverse_collectAll ih]
  | _ => rfl

/-- The worklist finds the values in the term. -/
theorem run_worklist (t : Term) : worklist.run [t] [] = t.values := by
  have hparts : ∀ t : Term,
      t.values = worklist.found t ++ (worklist.pushed t).reverse.flatMap values := by
    intro t
    cases t with
    | block s l ts => exact values_block s l ts
    | ext s o ts => exact values_ext s o ts
    | _ => simp [worklist, values, pushValues]
  rw [worklist.run_eq hparts, List.nil_append, List.flatMap_singleton]

end Term

/-- **Worklists visit everything once.** The references in a value come out in the order in which a
recursion on the components collects them, and the value owns something just if one of them is
owning; the values in a term come out in another order than the one in which they are collected from
its parts, but each of them as often. -/
theorem worklists_complete (v : Value) (t : Term) :
    (Value.worklist.run [v] [] = v.references ∧ v.references = v.collect ∧
      (v.containsOwner = true ↔ ∃ r ∈ v.references, r.owner = true)) ∧
    Term.worklist.run [t] [] = t.values ∧ t.values.Perm t.collect :=
  ⟨⟨v.run_worklist, v.references_eq_collect, Value.containsOwner_iff⟩, t.run_worklist,
    t.values_eq_reverse ▸ t.collect.reverse_perm⟩

end Ownership
