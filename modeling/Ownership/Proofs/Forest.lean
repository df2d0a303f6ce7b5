import Ownership.Lifetime

/-!
# Lifetimes form a forest

A lifetime is opened as the root of a tree or inside a lifetime that is there already
(`Lifetimes.Built`). Its identity is the number of lifetimes before it, so no two are the same, and
all that lies around it has been opened before it (`Lifetimes.Numbered`). Containment follows the
way from a lifetime to its root, which is the only one.

* `Lifetime.within_total`: **the lifetimes around a lifetime lie in each other.**
* `Lifetimes.forest_of_built`: **whatever has been opened is a forest**, and a new lifetime lies in
  itself, in its parent and in what lies around that; no lifetime from before lies in it.
-/

namespace Ownership

variable {l k o p r : Lifetime} {ls : Lifetimes}

namespace Lifetime

theorem within_inside {i : Nat} :
    (inside i p).within o = true ↔ o = inside i p ∨ p.within o = true := by
  simp [within, eq_comm (a := o)]

theorem within_root {i : Nat} : (root i).within o = true ↔ o = root i := by
  simp [within, eq_comm (a := o)]

/-- What lies around a scope and is not the scope itself has fewer scopes around it. -/
theorem within_antisymm (h : l.within k = true) (h' : k.within l = true) : l = k := by
  cases l with
  | root i => exact (within_root.1 h).symm
  | inside i p =>
    rcases within_inside.1 h with rfl | hp
    · rfl
    · have hle := length_enclosing (within_trans h' (within_inside.2 (.inl rfl)))
      have hlt := length_enclosing hp
      simp only [enclosing, List.length_cons] at hle
      omega

/-- **The lifetimes around a lifetime lie in each other.** -/
theorem within_total (hk : l.within k = true) (ho : l.within o = true) :
    k.within o = true ∨ o.within k = true := by
  induction l with
  | root i =>
    obtain rfl := within_root.1 hk
    exact .inl ho
  | inside i p ih =>
    rcases within_inside.1 hk with rfl | hk'
    · exact .inl ho
    rcases within_inside.1 ho with rfl | ho'
    · exact .inr hk
    · exact ih hk' ho'

theorem global_of_within (h : l.within k = true) : l.global = k.global := by
  induction l with
  | root i => rw [within_root.1 h]
  | inside i p ih =>
    rcases within_inside.1 h with rfl | hp
    · rfl
    · exact ih hp

theorem global_of_isRoot (h : r.isRoot = true) : r.global = r := by
  cases r with
  | root i => rfl
  | inside i p => cases h

/-- A lifetime lies in one root, that of its tree. -/
theorem within_isRoot_iff : r.isRoot = true ∧ l.within r = true ↔ r = l.global := by
  constructor
  · rintro ⟨hr, h⟩
    rw [global_of_within h, global_of_isRoot hr]
  · rintro rfl
    exact ⟨l.global_isRoot, l.within_global⟩

end Lifetime

namespace Lifetimes

/-- **The collections of lifetimes that can be opened**, one after the other. -/
inductive Built : Lifetimes → Prop where
  | empty : Built {}
  | newRoot {ls : Lifetimes} : Built ls → Built ls.newRoot.2
  | freshWithin {ls : Lifetimes} {p : Lifetime} : Built ls → p ∈ ls.list →
      Built (ls.freshWithin p).2

/-- The identity of a lifetime is its place in the list, and what lies around it is in the list. -/
structure Numbered (ls : Lifetimes) : Prop where
  ids : ls.list.map Lifetime.id = List.range ls.next
  around : ∀ l ∈ ls.list, ∀ o, l.within o = true → o ∈ ls.list

namespace Numbered

theorem distinct (h : ls.Numbered) : ls.list.Nodup := by
  have hids : (ls.list.map Lifetime.id).Nodup := h.ids ▸ List.nodup_range
  exact List.Pairwise.of_map Lifetime.id (fun _ _ hne he => hne (congrArg Lifetime.id he)) hids

theorem id_lt (h : ls.Numbered) (hl : l ∈ ls.list) : l.id < ls.next := by
  have hid : l.id ∈ ls.list.map Lifetime.id := List.mem_map_of_mem hl
  rwa [h.ids, List.mem_range] at hid

/-- One more lifetime, around which nothing else is new. -/
theorem push (h : ls.Numbered) (hid : l.id = ls.next)
    (hl : ∀ o, l.within o = true → o = l ∨ o ∈ ls.list) : Numbered ⟨ls.list ++ [l]⟩ where
  ids := by
    rw [next, List.length_append, List.length_singleton, List.range_succ, List.map_append, h.ids,
      List.map_singleton, hid, next]
  around := by
    intro k hk o ho
    rcases List.mem_append.1 hk with hk | hk
    · exact List.mem_append_left _ (h.around k hk o ho)
    · obtain rfl := List.mem_singleton.1 hk
      rcases hl o ho with rfl | ho
      · exact List.mem_append_right _ (List.mem_singleton_self _)
      · exact List.mem_append_left _ ho

theorem of_built (h : ls.Built) : ls.Numbered := by
  induction h with
  | empty => exact ⟨rfl, fun l hl => absurd hl List.not_mem_nil⟩
  | newRoot _ ih => exact ih.push rfl fun o ho => .inl (Lifetime.within_root.1 ho)
  | freshWithin _ hp ih =>
    refine ih.push rfl fun o ho => ?_
    exact (Lifetime.within_inside.1 ho).imp id (ih.around _ hp o)

end Numbered

/-- **A forest**: containment is an order in which whatever lies around one lifetime is a chain
that ends at a root, one for each tree. -/
structure Forest (ls : Lifetimes) : Prop where
  distinct : ls.list.Nodup
  refl : ∀ l ∈ ls.list, l.within l = true
  antisymm : ∀ l ∈ ls.list, ∀ k ∈ ls.list, l.within k = true → k.within l = true → l = k
  trans : ∀ l ∈ ls.list, ∀ k ∈ ls.list, ∀ o ∈ ls.list, l.within k = true → k.within o = true →
    l.within o = true
  chain : ∀ l ∈ ls.list, ∀ k ∈ ls.list, ∀ o ∈ ls.list, l.within k = true → l.within o = true →
    k.within o = true ∨ o.within k = true
  root : ∀ l ∈ ls.list, l.global ∈ ls.list ∧
    ∀ r ∈ ls.list, r.isRoot = true ∧ l.within r = true ↔ r = l.global
  tree : ∀ l ∈ ls.list, ∀ k ∈ ls.list, l.within k = true → l.global = k.global

namespace Numbered

theorem forest (h : ls.Numbered) : ls.Forest where
  distinct := h.distinct
  refl l _ := l.within_self
  antisymm _ _ _ _ := Lifetime.within_antisymm
  trans _ _ _ _ _ _ := Lifetime.within_trans
  chain _ _ _ _ _ _ := Lifetime.within_total
  root l hl := ⟨h.around l hl _ l.within_global, fun _ _ => Lifetime.within_isRoot_iff⟩
  tree _ _ _ _ := Lifetime.global_of_within

/-- A lifetime that is opened next is not around those that are there. -/
theorem not_within_fresh (h : ls.Numbered) (hk : k ∈ ls.list) :
    k.within (ls.freshWithin p).1 = false := by
  cases hw : k.within (ls.freshWithin p).1 with
  | false => rfl
  | true => exact absurd (h.id_lt (h.around k hk _ hw)) (Nat.lt_irrefl _)

end Numbered

/-- **Lifetimes form a forest**, in whatever order trees and scopes have been opened. A scope that
is opened next lies in itself and in whatever its parent lies in, and no lifetime from before lies
in it. -/
theorem forest_of_built (h : ls.Built) : ls.Forest ∧ ∀ p ∈ ls.list,
    (∀ o, (ls.freshWithin p).1.within o = true ↔
      o = (ls.freshWithin p).1 ∨ p.within o = true) ∧
    ∀ k ∈ ls.list, k.within (ls.freshWithin p).1 = false :=
  have hn := Numbered.of_built h
  ⟨hn.forest, fun _ _ => ⟨fun _ => Lifetime.within_inside, fun _ => hn.not_within_fresh⟩⟩

/-- Two trees; in the one there is a scope inside a scope. -/
def twoTrees : Lifetimes :=
  ⟨[.root 0, .inside 1 (.root 0), .root 2, .inside 3 (.inside 1 (.root 0))]⟩

/-- The next scope inside the first one is a sibling of the one that is there. -/
theorem forest_of_built_twoTrees : twoTrees.Built ∧ twoTrees.Forest ∧
    Lifetime.inside 1 (.root 0) ∈ twoTrees.list ∧
    (twoTrees.freshWithin (.inside 1 (.root 0))).1.within (.root 0) = true ∧
    (twoTrees.freshWithin (.inside 1 (.root 0))).1.within (.root 2) ≠ true ∧
    (Lifetime.inside 3 (.inside 1 (.root 0))).within
      (twoTrees.freshWithin (.inside 1 (.root 0))).1 = false := by
  have h : twoTrees.Built := .freshWithin (p := .inside 1 (.root 0))
    (.newRoot (.freshWithin (p := .root 0) (.newRoot .empty) (by decide))) (by decide)
  have hp : Lifetime.inside 1 (.root 0) ∈ twoTrees.list := by decide
  obtain ⟨forest, fresh⟩ := forest_of_built h
  obtain ⟨around, before⟩ := fresh _ hp
  exact ⟨h, forest, hp, (around _).2 (.inr (by decide)),
    fun hw => absurd ((around _).1 hw) (by decide), before _ (by decide)⟩

end Lifetimes

end Ownership
