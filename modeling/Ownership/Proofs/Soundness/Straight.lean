import Mathlib.Logic.Relation
import Ownership.Proofs.Soundness.Safe
import Ownership.Term.Parts

/-!
# Worlds without components

As long as every borrow is of a place without components, any two places of a variable
conflict, so at most one unique borrow leads to it. The unique borrows between variables
form a forest then, and no chain of them comes back to where it started
(`World.Straight`).

* `Straight.assign`: a write across unique borrows makes no cycle.
* `Straight.ne_of_crosses`: **a write does not come back to a variable that it goes through.**
-/

namespace Ownership

open Relation

namespace Place

theorem pathsMeet_of_derefs {s t : List Selector} (hs : s.all (· == .deref) = true)
    (ht : t.all (· == .deref) = true) : pathsMeet s t = true := by
  induction s generalizing t with
  | nil => simp [pathsMeet]
  | cons a s ih =>
    cases t with
    | nil => simp [pathsMeet]
    | cons b t =>
      simp only [List.all_cons, Bool.and_eq_true, beq_iff_eq] at hs ht
      rw [pathsMeet, hs.1, ht.1, ih hs.2 ht.2]
      rfl

/-- Straight places of one variable conflict. -/
theorem conflicts_of_straight {p q : Place} (hp : p.straight = true) (hq : q.straight = true)
    (e : p.name = q.name) : p.conflicts q = true := by
  rw [conflicts, e, pathsMeet_of_derefs hp hq, beq_self_eq_true]
  rfl

end Place

/-- New edges that start from some points and lead to where none of these can be reached from make
no cycle. -/
theorem acyclic_of_edges {α : Type} {r r' : α → α → Prop} {V : α → Prop}
    (hr : ∀ x, ¬ TransGen r x x)
    (h : ∀ a b, r' a b → r a b ∨ V a ∧ ∀ v, V v → ¬ ReflTransGen r b v) :
    ∀ x, ¬ TransGen r' x x := by
  -- from where the points cannot be reached, the new edges are not met
  have old : ∀ {z y}, (∀ v, V v → ¬ ReflTransGen r z v) → TransGen r' z y → TransGen r z y := by
    intro z y hz hy
    induction hy with
    | single hb =>
      rcases h _ _ hb with hb | ⟨ha, -⟩
      · exact .single hb
      · exact absurd .refl (hz _ ha)
    | tail _ hb ih =>
      rcases h _ _ hb with hb | ⟨ha, -⟩
      · exact .tail ih hb
      · exact absurd ih.to_reflTransGen (hz _ ha)
  -- the way after the last new edge starts from such a point
  have last : ∀ {x y}, TransGen r' x y →
      TransGen r x y ∨ ∃ z, (∀ v, V v → ¬ ReflTransGen r z v) ∧ ReflTransGen r' z y := by
    intro x y hy
    induction hy with
    | single hb => exact (h _ _ hb).imp .single fun hb => ⟨_, hb.2, .refl⟩
    | tail _ hb ih =>
      rcases ih with ih | ⟨z, hz, ih⟩
      · exact (h _ _ hb).imp (.tail ih) fun hb => ⟨_, hb.2, .refl⟩
      · exact .inr ⟨z, hz, .tail ih hb⟩
  intro x hx
  -- a cycle would go back to the point by old edges alone
  rcases last hx with hx' | ⟨z, hz, hzx⟩
  · exact hr x hx'
  · refine hr x (old (fun v hV hv => hz v hV ?_) hx)
    rcases reflTransGen_iff_eq_or_transGen.1 hzx with rfl | hzx
    · exact hv
    · exact (old hz hzx).to_reflTransGen.trans hv

namespace World

variable {W W' : World} {cs ds : List Content} {d old new : Content} {o : Loan}
variable {p q : Place} {loc : Reference} {l inner : Lifetime} {x y z : String}

/-- A unique borrow leads from the variable `x` to the variable `y`. -/
def Leads (W : World) (x y : String) : Prop :=
  ∃ r ∈ W, r.name = x ∧ ∃ o ∈ r.content.loans, o.stale = false ∧ o.mutable = true ∧
    o.target.name = y

/-- **No borrow is of a component**, and unique borrows do not lead back to where they come from. -/
structure Straight (W : World) (cs : List Content) : Prop where
  targets : ∀ o ∈ W.loans cs, o.target.straight = true
  acyclic : ∀ x, ¬ TransGen W.Leads x x

theorem Leads.of_at {π : List Selector} (ha : W.At ⟨x, π⟩ (.loan o) loc) (hs : o.stale = false)
    (hm : o.mutable = true) : W.Leads x o.target.name := by
  obtain ⟨r, hr, e, hw⟩ := ha
  exact ⟨r, hr, e, o, Content.mem_loans_of_walk hw (by simp [Content.loans]), hs, hm, rfl⟩

theorem Crosses.leads (h : W.Crosses p q) : ReflTransGen W.Leads p.name q.name := by
  induction h with
  | here => exact .refl
  | through ha hs hm _ ih => exact .head (.of_at ha hs hm) ih

namespace Straight

/-- At most one variable leads to another one. -/
theorem source_unique (h : W.Straight cs) (hs : W.Safe cs) (hx : W.Leads x z) (hy : W.Leads y z) :
    x = y := by
  obtain ⟨r, hr, rfl, o, ho, hst, hm, e⟩ := hx
  obtain ⟨r', hr', rfl, o', ho', hst', -, e'⟩ := hy
  by_cases hrr : r = r'
  · rw [hrr]
  · have hc : o.target.conflicts o'.target = true := Place.conflicts_of_straight
      (h.targets o (mem_loans hr ho)) (h.targets o' (mem_loans hr' ho')) (e.trans e'.symm)
    have := ((apart_of_ne hs.apart hr hr' hrr ho ho').left hst hm hc).1
    rw [hst'] at this
    cases this

/-- **A write does not come back to a variable that it goes through.** -/
theorem ne_of_crosses (h : W.Straight cs) {π rest : List Selector}
    (ha : W.At ⟨x, π⟩ (.loan o) loc) (hs : o.stale = false) (hm : o.mutable = true)
    (hc : W.Crosses (o.target.extend rest) q) : q.name ≠ x := by
  rintro rfl
  exact h.acyclic _ (.head' (.of_at ha hs hm) hc.leads)

/-! ### Changes -/

/-- Contents with fewer borrows are held outside. -/
theorem sub (h : W.Straight cs) (hs : ds.flatMap Content.loans ⊆ cs.flatMap Content.loans) :
    W.Straight ds where
  targets := by
    intro o ho
    rcases List.mem_append.1 ho with ho | ho
    · exact h.targets o (List.mem_append_left _ ho)
    · exact h.targets o (List.mem_append_right _ (hs ho))
  acyclic := h.acyclic

/-- Another content is held outside. -/
theorem add (h : W.Straight cs) (hd : ∀ o ∈ d.loans, o.target.straight = true) :
    W.Straight (d :: cs) where
  targets := by
    intro o ho
    rcases List.mem_append.1 ho with ho | ho
    · exact h.targets o (List.mem_append_left _ ho)
    · rcases List.mem_append.1 ho with ho | ho
      · exact hd o ho
      · exact h.targets o (List.mem_append_right _ ho)
  acyclic := h.acyclic

/-- Another content is put where nothing that it borrows leads to. -/
theorem put (h : W.Straight (new :: cs)) (hs : (W.map Root.name).Nodup) (hq : W.At q old loc)
    (hn : ∀ o ∈ new.loans, o.stale = false → o.mutable = true →
      ¬ ReflTransGen W.Leads o.target.name q.name) : (W.put q new).Straight (old :: cs) where
  targets := fun o ho => h.targets o ((loans_put hs hq new).mem_iff.1 ho)
  acyclic := by
    refine acyclic_of_edges (V := (· = q.name)) h.acyclic fun a b hab => ?_
    -- the new edges are those of the new content
    obtain ⟨r, hr, rfl, o, ho, hst, hm, rfl⟩ := hab
    obtain ⟨r₀, hr₀, en, -, hcase⟩ := Safe.mem_put hr
    rcases hcase with ⟨e, hcont⟩ | ⟨-, hcont⟩
    · obtain ⟨r₁, hr₁, e₁, hw⟩ := hq
      have := root_unique hs hr₀ hr₁ (e.trans e₁.symm)
      subst this
      have hmem := (Content.loans_put hw new).mem_iff (a := o)
      rw [List.mem_append, List.mem_append] at hmem
      rcases hmem.1 (.inl (hcont ▸ ho)) with ho | ho
      · exact .inl ⟨r₀, hr₀, en.symm, o, ho, hst, hm, rfl⟩
      · exact .inr ⟨en.trans e, fun v hv => hv ▸ hn o ho hst hm⟩
    · exact .inl ⟨r₀, hr₀, en.symm, o, hcont ▸ ho, hst, hm, rfl⟩

/-- A content is moved out. -/
theorem strike (h : W.Straight cs) (hs : (W.map Root.name).Nodup) (hq : W.At q old loc) :
    (W.put q .gone).Straight (old :: cs) :=
  (h.add (d := .gone) nofun).put hs hq nofun

/-- A content is moved on and leaves a stale copy behind. -/
theorem age (h : W.Straight cs) (hs : (W.map Root.name).Nodup) (hq : W.At q old loc) :
    (W.put q old.age).Straight (old :: cs) := by
  have aged : ∀ o ∈ old.age.loans, o.target.straight = true ∧ o.stale = true := by
    intro o ho
    rw [Content.loans_age] at ho
    obtain ⟨o₀, ho₀, rfl⟩ := List.mem_map.1 ho
    exact ⟨h.targets o₀ (hq.mem_loans ho₀), rfl⟩
  refine (h.add fun o ho => (aged o ho).1).put hs hq fun o ho hst _ => ?_
  rw [(aged o ho).2] at hst
  cases hst

/-- **A write across unique borrows makes no cycle**, if nothing borrows from where it starts. The
only way to where it ends is the one that it takes. -/
theorem assign (h : W.Straight (d :: cs)) (hs : W.Safe (d :: cs)) (hc : W.Crosses p q)
    (hq : W.At q old loc) (hp : ∀ o ∈ W.loans (d :: cs), o.target.name ≠ p.name) :
    (W.put q d).Straight (old :: cs) := by
  refine h.put hs.names hq fun o ho hst hm hback => ?_
  have ho' : o ∈ (d :: cs).flatMap Content.loans := List.mem_append_left _ ho
  -- no way ends where the write starts, nor where the new borrow leads
  have start : ∀ x, ¬ W.Leads x p.name := by
    rintro x ⟨r, hr, -, o', hr', -, -, e⟩
    exact hp o' (mem_loans hr hr') e
  have target : ∀ x, ¬ W.Leads x o.target.name := by
    rintro x ⟨r, hr, -, o', hr', hst', hm', e⟩
    have hapart := (List.pairwise_append.1 hs.apart).2.2 o'
      (List.mem_flatMap.2 ⟨r, hr, hr'⟩) o ho'
    have := (hapart.left hst' hm' (Place.conflicts_of_straight (h.targets o' (mem_loans hr hr'))
      (h.targets o (List.mem_append_right _ ho')) e)).1
    rw [hst] at this
    cases this
  have hne : o.target.name ≠ p.name := hp o (List.mem_append_right _ ho')
  have unique : Relator.RightUnique (Function.swap W.Leads) :=
    fun _ _ _ hx hy => h.source_unique hs hx hy
  rcases ReflTransGen.total_of_right_unique unique (reflTransGen_swap.2 hback)
    (reflTransGen_swap.2 hc.leads) with h' | h'
  · rcases ReflTransGen.cases_tail (reflTransGen_swap.1 h') with e | ⟨x, -, hx⟩
    · exact hne e
    · exact target x hx
  · rcases ReflTransGen.cases_tail (reflTransGen_swap.1 h') with e | ⟨x, -, hx⟩
    · exact hne e.symm
    · exact start x hx

/-- A new variable is not borrowed yet. -/
theorem bind (h : W.Straight (d :: cs)) (hs : W.Safe (d :: cs)) (hx : ∀ r ∈ W, r.name ≠ x)
    (a : Nat) : Straight (⟨x, d, l, a⟩ :: W) cs where
  targets := by
    intro o ho
    refine h.targets o ?_
    simp only [World.loans, List.flatMap_cons, List.mem_append] at ho ⊢
    rcases ho with (ho | ho) | ho
    · exact .inr (.inl ho)
    · exact .inl ho
    · exact .inr (.inr ho)
  acyclic := by
    have fresh : ∀ o ∈ W.loans (d :: cs), o.target.name ≠ x := by
      rintro o ho rfl
      obtain ⟨t, ht⟩ := hs.loans o ho
      obtain ⟨r, hr, e⟩ := ht.root
      exact hx r hr e
    refine acyclic_of_edges (V := (· = x)) h.acyclic fun a b hab => ?_
    obtain ⟨r, hr, rfl, o, ho, hst, hm, rfl⟩ := hab
    rcases List.mem_cons.1 hr with rfl | hr
    · refine .inr ⟨rfl, fun v hv hback => ?_⟩
      subst hv
      rcases ReflTransGen.cases_tail hback with e | ⟨y, -, r, hr, -, o', ho', -, -, e⟩
      · exact fresh o (List.mem_append_right _ (List.mem_append_left _ ho)) e.symm
      · exact fresh o' (mem_loans hr ho') e
    · exact .inl ⟨r, hr, rfl, o, ho, hst, hm, rfl⟩

/-- Variables are forgotten. -/
theorem filter (h : W.Straight cs) (f : Root → Bool) : Straight (W.filter f) cs where
  targets := by
    intro o ho
    refine h.targets o ?_
    rcases List.mem_append.1 ho with ho | ho
    · obtain ⟨r, hr, ho⟩ := List.mem_flatMap.1 ho
      exact mem_loans (List.mem_filter.1 hr).1 ho
    · exact List.mem_append_right _ ho
  acyclic := fun x hx => h.acyclic x <| TransGen.mono (fun _ _ ⟨r, hr, hl⟩ =>
    ⟨r, (List.mem_filter.1 hr).1, hl⟩) _ _ hx

end Straight

end World

end Ownership
