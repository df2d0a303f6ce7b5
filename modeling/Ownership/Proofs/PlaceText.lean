import Mathlib.Data.List.Basic
import Mathlib.Data.List.Induction
import Ownership.Place

/-!
# The text of a place

Selectors are written around a name in the order of the path, a star in front and a component
behind, so the text tells which selector came last: it starts with a star just if that was a
dereference, and otherwise has a dot just if it was a component. In front of the last dot is then
the text that the component was picked from, in parentheses just if that starts with a star. A text
that starts with a parenthesis and a star by itself is no such text in parentheses, because it ends
with a number.

* `Place.text_inj`: **different places have different texts**, unless a name has stars or dots.
-/

namespace Ownership.Place

variable {p q : Place} {x : String} {i j : Nat} {t u : List Char}

/-- A place is a variable, or there is a last selector. -/
@[elab_as_elim]
theorem selected {motive : Place → Prop} (var : ∀ x, motive (var x))
    (deref : ∀ p, motive p → motive p.deref) (index : ∀ p i, motive p → motive (p.index i)) :
    ∀ p, motive p
  | ⟨x, path⟩ => by
    induction path using List.reverseRecOn with
    | nil => exact var x
    | append_singleton path last ih =>
      cases last with
      | deref => exact deref ⟨x, path⟩ ih
      | index i => exact index ⟨x, path⟩ i ih

/-! ### The outermost sign -/

/-- The text starts with a star. -/
def Starred (t : List Char) : Prop := t.head? = some '*'

instance (t : List Char) : Decidable (Starred t) :=
  inferInstanceAs (Decidable (t.head? = some '*'))

/-- What a component of a place with the text `t` is written behind. -/
def setOff (t : List Char) : List Char := if Starred t then '(' :: (t ++ [')']) else t

theorem setOff_of_starred (h : Starred t) : setOff t = '(' :: (t ++ [')']) := if_pos h

theorem setOff_of_not_starred (h : ¬ Starred t) : setOff t = t := if_neg h

theorem toList_deref (p : Place) : p.deref.text.toList = '*' :: p.text.toList := by
  simp [text, deref, select]

theorem toList_index (p : Place) (i : Nat) :
    (p.index i).text.toList = setOff p.text.toList ++ '.' :: (toString i).toList := by
  have hlast : (p.index i).text = select p.text (.index i) := by simp [text, index]
  rw [hlast, select]
  by_cases h : p.text.toList.head? = some '*'
  · rw [if_pos h, setOff_of_starred h]
    simp
  · rw [if_neg h, setOff_of_not_starred h]
    simp

/-- No sign of a path is in the name. -/
def Unmarked (p : Place) : Prop := '*' ∉ p.name.toList ∧ '.' ∉ p.name.toList

instance (p : Place) : Decidable p.Unmarked :=
  inferInstanceAs (Decidable ('*' ∉ p.name.toList ∧ '.' ∉ p.name.toList))

theorem starred_deref (p : Place) : Starred p.deref.text.toList := by
  rw [toList_deref]
  rfl

theorem not_starred_setOff (t : List Char) : ¬ Starred (setOff t) := by
  by_cases h : Starred t
  · rw [setOff_of_starred h]
    simp [Starred]
  · rwa [setOff_of_not_starred h]

theorem not_starred_index (p : Place) (i : Nat) : ¬ Starred (p.index i).text.toList := by
  have h := not_starred_setOff p.text.toList
  rw [toList_index, Starred]
  cases hs : setOff p.text.toList with
  | nil => simp
  | cons c t =>
    rw [hs] at h
    exact h

theorem not_starred_var (hx : (var x).Unmarked) : ¬ Starred (var x).text.toList :=
  fun h => hx.1 (List.mem_of_mem_head? h)

theorem dot_not_mem_var (hx : (var x).Unmarked) : '.' ∉ (var x).text.toList := hx.2

theorem dot_mem_index (p : Place) (i : Nat) : '.' ∈ (p.index i).text.toList := by
  simp [toList_index]

/-! ### Components -/

theorem isDigit_of_mem {c : Char} (h : c ∈ (toString i).toList) : c.isDigit = true := by
  rw [Nat.toString_eq_repr, Nat.toList_repr] at h
  exact Nat.isDigit_of_mem_toDigits (by decide) (by decide) h

theorem not_mem_digits {c : Char} (hc : c.isDigit = false) (i : Nat) : c ∉ (toString i).toList :=
  fun h => by
    rw [isDigit_of_mem h] at hc
    cases hc

/-- A list can be divided in one way only in front of the last dot. -/
theorem divided_inj {t' u' : List Char} (hu : '.' ∉ u) (hu' : '.' ∉ u')
    (h : t ++ '.' :: u = t' ++ '.' :: u') : t = t' ∧ u = u' := by
  rcases List.append_eq_append_iff.1 h with ⟨c, rfl, hc⟩ | ⟨c, rfl, hc⟩
  · cases c with
    | nil => simpa using hc
    | cons d c =>
      -- the dot in front of `u'` would be in `u`
      rw [List.cons_append, List.cons.injEq] at hc
      simp [hc.2] at hu
  · cases c with
    | nil => simpa [eq_comm] using hc
    | cons d c =>
      rw [List.cons_append, List.cons.injEq] at hc
      simp [hc.2] at hu'

/-- The last dot divides the component from what it is picked from. -/
theorem index_cancel (h : (p.index i).text = (q.index j).text) :
    setOff p.text.toList = setOff q.text.toList ∧ i = j := by
  rw [← String.toList_inj, toList_index, toList_index] at h
  obtain ⟨hfront, hnum⟩ := divided_inj (not_mem_digits (by decide) i)
    (not_mem_digits (by decide) j) h
  exact ⟨hfront, number_injective (String.toList_inj.1 hnum)⟩

/-- A text that is not starred is not one that has been set off. -/
theorem ne_setOff (hp : p.Unmarked) (hs : ¬ Starred p.text.toList) (ht : Starred t) :
    p.text.toList ≠ setOff t := by
  rw [setOff_of_starred ht]
  intro h
  cases p using selected with
  | var x =>
    -- the star would be in the name
    have hstar : '*' ∈ t := List.mem_of_mem_head? ht
    refine hp.1 ?_
    rw [show (var x).name.toList = '(' :: (t ++ [')']) from h]
    simp [hstar]
  | deref p => exact hs (starred_deref p)
  | index p i =>
    -- the parenthesis would be in the number
    have hlast : ('.' :: (toString i).toList).getLast? = some ')' := by
      rw [toList_index, ← List.cons_append] at h
      have hl := congrArg List.getLast? h
      rwa [List.getLast?_append_of_ne_nil _ (List.cons_ne_nil _ _), List.getLast?_concat] at hl
    rcases List.mem_cons.1 (List.mem_of_getLast? hlast) with hc | hc
    · cases hc
    · exact not_mem_digits (by decide) i hc

theorem setOff_inj (hp : p.Unmarked) (hq : q.Unmarked)
    (h : setOff p.text.toList = setOff q.text.toList) : p.text = q.text := by
  rw [← String.toList_inj]
  by_cases hps : Starred p.text.toList
  · by_cases hqs : Starred q.text.toList
    · rw [setOff_of_starred hps, setOff_of_starred hqs] at h
      simpa using h
    · rw [setOff_of_not_starred hqs] at h
      exact absurd h.symm (ne_setOff hq hqs hps)
  · by_cases hqs : Starred q.text.toList
    · rw [setOff_of_not_starred hps] at h
      exact absurd h (ne_setOff hp hps hqs)
    · rwa [setOff_of_not_starred hps, setOff_of_not_starred hqs] at h

/-- **Different places have different texts**, whatever selectors they have and in which order, if
no name has a star or a dot. -/
theorem text_inj (hp : p.Unmarked) (hq : q.Unmarked) : p.text = q.text ↔ p = q := by
  refine ⟨fun h => ?_, congrArg text⟩
  induction p using selected generalizing q with
  | var x =>
    cases q using selected with
    | var y => exact congrArg var h
    | deref q => exact absurd (h ▸ starred_deref q) (not_starred_var hp)
    | index q j => exact absurd (h ▸ dot_mem_index q j) (dot_not_mem_var hp)
  | deref p ih =>
    cases q using selected with
    | var y => exact absurd (h ▸ starred_deref p) (not_starred_var hq)
    | deref q =>
      rw [← String.toList_inj, toList_deref, toList_deref, List.cons.injEq, String.toList_inj] at h
      rw [ih (q := q) hp hq h.2]
    | index q j => exact absurd (h ▸ starred_deref p) (not_starred_index q j)
  | index p i ih =>
    cases q using selected with
    | var y => exact absurd (h ▸ dot_mem_index p i) (dot_not_mem_var hq)
    | deref q => exact absurd (h ▸ starred_deref q) (not_starred_index p i)
    | index q j =>
      obtain ⟨hfront, rfl⟩ := index_cancel h
      rw [ih (q := q) hp hq (setOff_inj (p := p) (q := q) hp hq hfront)]

/-- A component of what `x` refers to is told from what a component of `x` refers to. -/
theorem text_inj_behindOrInside :
    ((var "x").deref.index 0).Unmarked ∧ ((var "x").index 0).deref.Unmarked ∧
    ((var "x").deref.index 0).text ≠ ((var "x").index 0).deref.text := by
  have hp : ((var "x").deref.index 0).Unmarked := by decide
  have hq : ((var "x").index 0).deref.Unmarked := by decide
  exact ⟨hp, hq, fun h => absurd ((text_inj hp hq).1 h) (by decide)⟩

/-- Stars and dots in names are not told from those of paths. -/
example : (var "*x").text = (var "x").deref.text ∧ (var "x.0").text = ((var "x").index 0).text := by
  decide

end Ownership.Place
