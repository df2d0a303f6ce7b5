import Ownership.Ty.Basic

/-!
# Paths into types

A path leads into a type through boxes and components. It ends at a part of the
type, or it stops on the way (`Walk`): at a borrow, whose targets the rest of the
path continues from, at a shadow, or where it does not fit.

A path that gets somewhere passes boxes and components only, so that what is proved of it
is proved for its end, for a box and for a component (`Ty.reached_induction`,
`Ty.crossed_induction`).
-/

namespace Ownership

/-- Where a path into a type leads. -/
inductive Walk where
  /-- To a part of the type. -/
  | reached (ty : Ty)
  /-- Through a borrow, with `rest` still to follow from each of its targets. -/
  | crossed (mutable : Bool) (targets : PlaceSet) (rest : List Selector)
  /-- Below a shadow, where nothing can be reached. -/
  | shadowed
  /-- Below a type that has no parts. -/
  | notReference
  /-- To a part that the type does not have. -/
  | misfit
  deriving DecidableEq

namespace Ty

def follow : Ty → List Selector → Walk
  | t, [] => .reached t
  | box t, .deref :: s => t.follow s
  | compound ts, .index i :: s =>
    match ts[i]? with
    | some t => t.follow s
    | none => .misfit
  | borrow m ps, .deref :: s => .crossed m ps s
  | shadow _, _ :: _ => .shadowed
  | unit, _ :: _ | int, _ :: _ | borrow .., .index _ :: _ => .notReference
  | box _, .index _ :: _ | compound _, .deref :: _ => .misfit

/-- Puts `new` in the stead of the part that the path leads to through boxes and components. -/
def replaceAt : Ty → List Selector → Ty → Ty
  | _, [], new => new
  | box t, .deref :: s, new => box (t.replaceAt s new)
  | compound ts, .index i :: s, new => compound (ts.modify i fun t => t.replaceAt s new)
  | t, _ :: _, _ => t

variable {t old new : Ty} {ts : List Ty} {i j : Nat} {s rest more : List Selector}
variable {m : Bool} {ps : PlaceSet}

theorem follow_nil (t : Ty) : t.follow [] = .reached t := by cases t <;> rfl

theorem replaceAt_nil (t new : Ty) : t.replaceAt [] new = new := by cases t <;> rfl

theorem follow_component (hi : ts[i]? = some t) (s : List Selector) :
    (compound ts).follow (.index i :: s) = t.follow s := by
  simp only [follow, hi]

/-- Only one component changes where a component is modified. -/
theorem component_of_modify {f : Ty → Ty} {u : Ty} (h : (ts.modify i f)[j]? = some u) :
    (∃ t, i = j ∧ ts[j]? = some t ∧ u = f t) ∨ i ≠ j ∧ ts[j]? = some u := by
  rw [List.getElem?_modify, Option.map_eq_map, Option.map_eq_some_iff] at h
  obtain ⟨t, ht, rfl⟩ := h
  by_cases e : i = j
  · exact .inl ⟨t, e, ht, if_pos e⟩
  · exact .inr ⟨e, by rw [if_neg e]; exact ht⟩

/-! ### Inductions along paths -/

/-- **A path to a part** ends at once, or goes on in a box or in a component. -/
@[elab_as_elim]
theorem reached_induction {old : Ty}
    {motive : (t : Ty) → (s : List Selector) → t.follow s = .reached old → Prop}
    (here : motive old [] (follow_nil old))
    (box : ∀ t s (hf : t.follow s = .reached old), motive t s hf →
      motive (box t) (.deref :: s) hf)
    (component : ∀ ts i t s (hi : ts[i]? = some t) (hf : t.follow s = .reached old),
      motive t s hf → motive (compound ts) (.index i :: s) ((follow_component hi s).trans hf))
    (t : Ty) (s : List Selector) (hf : t.follow s = .reached old) : motive t s hf := by
  induction s generalizing t with
  | nil =>
    obtain rfl : t = old := by simpa [follow_nil] using hf
    exact here
  | cons a s ih =>
    cases t with
    | box t =>
      cases a with
      | deref => exact box t s hf (ih t hf)
      | index i => cases hf
    | compound ts =>
      cases a with
      | deref => cases hf
      | index i =>
        cases hi : ts[i]? with
        | none => simp [follow, hi] at hf
        | some t =>
          have hf' : t.follow s = .reached old := (follow_component hi s).symm.trans hf
          exact component ts i t s hi hf' (ih t hf')
    | _ => cases a <;> cases hf

/-- **A path through a borrow** crosses it at once, or goes on in a box or in a component. -/
@[elab_as_elim]
theorem crossed_induction {m : Bool} {ps : PlaceSet} {rest : List Selector}
    {motive : (t : Ty) → (s : List Selector) → t.follow s = .crossed m ps rest → Prop}
    (here : motive (borrow m ps) (.deref :: rest) rfl)
    (box : ∀ t s (hf : t.follow s = .crossed m ps rest), motive t s hf →
      motive (box t) (.deref :: s) hf)
    (component : ∀ ts i t s (hi : ts[i]? = some t) (hf : t.follow s = .crossed m ps rest),
      motive t s hf → motive (compound ts) (.index i :: s) ((follow_component hi s).trans hf))
    (t : Ty) (s : List Selector) (hf : t.follow s = .crossed m ps rest) : motive t s hf := by
  induction s generalizing t with
  | nil =>
    rw [follow_nil] at hf
    cases hf
  | cons a s ih =>
    cases t with
    | box t =>
      cases a with
      | deref => exact box t s hf (ih t hf)
      | index i => cases hf
    | borrow =>
      cases a with
      | deref =>
        cases hf
        exact here
      | index i => cases hf
    | compound ts =>
      cases a with
      | deref => cases hf
      | index i =>
        cases hi : ts[i]? with
        | none => simp [follow, hi] at hf
        | some t =>
          have hf' : t.follow s = .crossed m ps rest := (follow_component hi s).symm.trans hf
          exact component ts i t s hi hf' (ih t hf')
    | _ => cases a <;> cases hf

/-- What is left of a path behind a borrow is its end. -/
theorem suffix_of_crossed (hf : t.follow s = .crossed m ps rest) : rest <:+ s := by
  induction t, s, hf using crossed_induction with
  | here => exact List.suffix_cons ..
  | box t s hf ih => exact ih.trans (List.suffix_cons ..)
  | component ts i t s hi hf ih => exact ih.trans (List.suffix_cons ..)

/-- A borrow is crossed by a selector of its own. -/
theorem length_of_crossed (hf : t.follow s = .crossed m ps rest) : rest.length < s.length := by
  induction t, s, hf using crossed_induction with
  | here => exact Nat.lt_succ_self _
  | box t s hf ih => exact Nat.lt_succ_of_lt ih
  | component ts i t s hi hf ih => exact Nat.lt_succ_of_lt ih

theorem follow_append_of_reached (hf : t.follow s = .reached old) :
    t.follow (s ++ rest) = old.follow rest := by
  induction t, s, hf using reached_induction with
  | here => rfl
  | box t s hf ih => exact ih
  | component ts i t s hi hf ih => exact (follow_component hi _).trans ih

theorem follow_append_of_crossed (hf : t.follow s = .crossed m ps rest) :
    t.follow (s ++ more) = .crossed m ps (rest ++ more) := by
  induction t, s, hf using crossed_induction with
  | here => rfl
  | box t s hf ih => exact ih
  | component ts i t s hi hf ih => exact (follow_component hi _).trans ih

/-- What has been put in is found there. -/
theorem follow_replaceAt (hf : t.follow s = .reached old) :
    (t.replaceAt s new).follow s = .reached new := by
  induction t, s, hf using reached_induction with
  | here => rw [replaceAt_nil, follow_nil]
  | box t s hf ih => exact ih
  | component ts i t s hi hf ih =>
    have hr : (ts.modify i fun t => t.replaceAt s new)[i]? = some (t.replaceAt s new) := by
      rw [List.getElem?_modify, hi]
      simp
    exact (follow_component hr s).trans ih

/-- A part that is put where it is changes nothing. -/
theorem replaceAt_self (hf : t.follow s = .reached old) : t.replaceAt s old = t := by
  induction t, s, hf using reached_induction with
  | here => rw [replaceAt_nil]
  | box t s hf ih => exact congrArg box ih
  | component ts i t s hi hf ih =>
    refine congrArg compound (List.ext_getElem? fun j => ?_)
    rw [List.getElem?_modify]
    by_cases e : i = j
    · subst e
      simp [hi, ih]
    · simp [e]

/-- A whole type stays whole if the part that is put into it is. -/
theorem defined_replaceAt (hf : t.follow s = .reached old) (ht : t.defined = true)
    (hn : old.defined = true → new.defined = true) : (t.replaceAt s new).defined = true := by
  induction t, s, hf using reached_induction with
  | here =>
    rw [replaceAt_nil]
    exact hn ht
  | box t s hf ih => exact ih ht
  | component ts i t s hi hf ih =>
    rw [defined, allDefined_eq, List.all_eq_true] at ht
    show (compound (ts.modify i _)).defined = true
    rw [defined, allDefined_eq, List.all_eq_true]
    intro v hv
    obtain ⟨j, hj⟩ := List.mem_iff_getElem?.1 hv
    rcases component_of_modify hj with ⟨u, rfl, hu, rfl⟩ | ⟨-, hu⟩
    · cases hi.symm.trans hu
      exact ih (ht t (List.mem_of_getElem? hi))
    · exact ht v (List.mem_of_getElem? hu)

end Ty

end Ownership
