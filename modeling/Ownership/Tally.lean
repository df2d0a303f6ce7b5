/-!
# Tallies

How often each number below a bound occurs in a list, found in one pass
(`getElem?_tally`).
-/

namespace Ownership

/-- At place `a`, for `a` below `n`, how often `a` occurs in the list. -/
def tally (n : Nat) (l : List Nat) : Array Nat :=
  l.foldr (fun a counts => counts.setIfInBounds a (counts.getD a 0 + 1)) (Array.replicate n 0)

@[simp] theorem size_tally (n : Nat) (l : List Nat) : (tally n l).size = n := by
  induction l with
  | nil => simp [tally]
  | cons a l ih => simpa [tally] using ih

theorem getElem?_tally (n : Nat) (l : List Nat) (a : Nat) :
    (tally n l)[a]? = if a < n then some (l.count a) else none := by
  induction l with
  | nil => simp [tally, Array.getElem?_replicate]
  | cons b l ih =>
    have hs : (tally n (b :: l))[a]? =
        ((tally n l).setIfInBounds b ((tally n l).getD b 0 + 1))[a]? := rfl
    rw [hs, Array.getElem?_setIfInBounds, size_tally, Array.getD_eq_getD_getElem?]
    by_cases e : b = a
    · subst e
      rw [ih, List.count_cons_self]
      by_cases hb : b < n <;> simp [hb]
    · rw [if_neg e, ih, List.count_cons_of_ne e]

theorem getD_tally {n a : Nat} (h : a < n) (l : List Nat) : (tally n l).getD a 0 = l.count a := by
  rw [Array.getD_eq_getD_getElem?, getElem?_tally, if_pos h, Option.getD_some]

end Ownership
