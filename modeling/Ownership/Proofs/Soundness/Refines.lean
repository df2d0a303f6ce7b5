import Ownership.Proofs.Soundness.Content
import Ownership.Ty.Path
import Ownership.Ty.Union

/-!
# Contents of a type

A content refines a type if it is one of the contents that the type describes: its borrows are
of targets that the type names, and only what is shadowed may be gone or stale
(`Refines`). Types are approximations, so whatever refines one of two types refines
their union (`Refines.union_left`, `Refines.union_right`).

* `Refines.reached`, `Refines.crossed`: a path leads to the same point of both.
* `Refines.put`: replacing a part of both.
* `Refines.mem_borrows`: the type knows of every borrow in the content.
-/

namespace Ownership

/-- **The content is one of those that the type describes.** Under a shadow, where `shadowed` is
set, borrows may be stale. -/
inductive Refines : Bool → Ty → Content → Prop where
  | unit {shadowed} : Refines shadowed .unit .unit
  | int {shadowed n} : Refines shadowed .int (.int n)
  | box {shadowed g a c} : Refines shadowed g c → Refines shadowed (.box g) (.box a c)
  | borrow {shadowed ps o} : o.target ∈ ps → (shadowed = false → o.stale = false) →
      Refines shadowed (.borrow o.mutable ps) (.loan o)
  | compound {shadowed gs cs} : gs.length = cs.length →
      (∀ (i : Nat) g c, gs[i]? = some g → cs[i]? = some c → Refines shadowed g c) →
      Refines shadowed (.compound gs) (.compound cs)
  | gone {shadowed g} : Refines shadowed (.shadow g) .gone
  | shadow {shadowed g c} : Refines true g c → Refines shadowed (.shadow g) c

namespace Refines

variable {k : Bool} {g h u old new : Ty} {gs hs us : List Ty} {c d : Content} {cs : List Content}
variable {r r' : Reference} {s : List Selector}

theorem toShadowed (hr : Refines k g c) : Refines true g c := by
  induction hr with
  | unit => exact .unit
  | int => exact .int
  | box _ ih => exact .box ih
  | borrow hm _ => exact .borrow hm nofun
  | compound hl _ ih => exact .compound hl ih
  | gone => exact .gone
  | shadow hr _ => exact .shadow hr

theorem exists_getElem? {α β : Type} {xs : List α} {ys : List β} (hl : xs.length = ys.length)
    {i : Nat} {x : α} (h : xs[i]? = some x) : ∃ y, ys[i]? = some y := by
  obtain ⟨hi, -⟩ := List.getElem?_eq_some_iff.1 h
  rw [hl] at hi
  exact ⟨ys[i], List.getElem?_eq_getElem hi⟩

/-! ### Unions -/

/-- What refines the type `g` refines `u`, under shadows or not. -/
def Covers (u g : Ty) : Prop := ∀ k c, Refines k g c → Refines k u c

theorem covers_shadow (hc : Covers u g) : Covers (.shadow u) (.shadow g) := by
  intro k c hr
  cases hr with
  | gone => exact .gone
  | shadow hr => exact .shadow (hc true c hr)

theorem covers_shadow_of (hc : Covers u g) : Covers (.shadow u) g :=
  fun _ c hr => .shadow (hc true c hr.toShadowed)

theorem covers_shadow_peel (hc : Covers u g.peel) : Covers (.shadow u) g := by
  cases g with
  | shadow g => exact covers_shadow hc
  | _ => exact covers_shadow_of hc

theorem covers_box (hc : Covers u g) : Covers (.box u) (.box g) := by
  intro k c hr
  cases hr with
  | box hr => exact .box (hc k _ hr)

theorem covers_borrow {m : Bool} {ps qs : PlaceSet} (hp : ∀ p ∈ ps, p ∈ qs) :
    Covers (.borrow m qs) (.borrow m ps) := by
  intro k c hr
  cases hr with
  | borrow hm hs => exact .borrow (hp _ hm) hs

theorem covers_compound (hl : us.length = gs.length)
    (hc : ∀ (i : Nat) u g, us[i]? = some u → gs[i]? = some g → Covers u g) :
    Covers (.compound us) (.compound gs) := by
  intro k c hr
  cases hr with
  | compound hl' hr =>
    refine .compound (hl.trans hl') fun i u c hu hc' => ?_
    obtain ⟨g, hg⟩ := exists_getElem? hl hu
    exact hc i u g hu hg k c (hr i g c hg hc')

/-- **A union covers both types.** -/
theorem covers_union (hu : g.union h = some u) : Covers u g ∧ Covers u h := by
  have hj := Ty.joins_of_union hu
  clear hu
  induction hj with
  | unit => exact ⟨fun _ _ h => h, fun _ _ h => h⟩
  | int => exact ⟨fun _ _ h => h, fun _ _ h => h⟩
  | box _ ih => exact ih.imp covers_box covers_box
  | borrow =>
    exact ⟨covers_borrow fun p hp => PlaceSet.mem_union.2 (.inl hp),
      covers_borrow fun p hp => PlaceSet.mem_union.2 (.inr hp)⟩
  -- the shadow of either type is over the union
  | shadow _ _ ih => exact ih.imp covers_shadow_peel covers_shadow_peel
  | compound hcs _ ih =>
    obtain ⟨hl, hl', each⟩ := Ty.unionAll_getElem? hcs
    refine ⟨covers_compound hl fun i u g hu hg => ?_, covers_compound hl' fun i u h hu hh => ?_⟩
    · obtain ⟨g', h, -, hh, -⟩ := each i u hu
      exact (ih i g h u hg hh hu).1
    · obtain ⟨g, h', hg, -, -⟩ := each i u hu
      exact (ih i g h u hg hh hu).2

theorem union_left (hu : g.union h = some u) (hr : Refines k g c) : Refines k u c :=
  (covers_union hu).1 k c hr

theorem union_right (hu : g.union h = some u) (hr : Refines k h c) : Refines k u c :=
  (covers_union hu).2 k c hr

/-! ### Paths -/

/-- Where the path reaches a part of the type, it reaches a part of the content. -/
theorem reached (hr : Refines false g c) (hf : g.follow s = .reached h) :
    ∃ d r', c.walk r s = some (d, r') ∧ Refines false h d := by
  induction g, s, hf using Ty.reached_induction generalizing c r with
  | here => exact ⟨c, r, by simp, hr⟩
  | box g s hf ih =>
    cases hr with
    | box hr => exact ih hr
  | component gs i g s hi hf ih =>
    cases hr with
    | compound hl hr =>
      obtain ⟨e, hc⟩ := exists_getElem? hl hi
      obtain ⟨d, r', hw, hd⟩ := ih (r := r.index i) (hr i g e hi hc)
      exact ⟨d, r', by simpa [Content.walk, hc] using hw, hd⟩

/-- Where the path crosses a borrow in the type, it comes to one of its targets in the content. -/
theorem crossed {m : Bool} {ps : PlaceSet} {rest : List Selector} (hr : Refines false g c)
    (hf : g.follow s = .crossed m ps rest) :
    ∃ π o r', s = π ++ .deref :: rest ∧ c.walk r π = some (.loan o, r') ∧ o.stale = false ∧
      o.mutable = m ∧ o.target ∈ ps := by
  induction g, s, hf using Ty.crossed_induction generalizing c r with
  | here =>
    cases hr with
    | @borrow _ _ o hm hs => exact ⟨[], o, r, rfl, rfl, hs rfl, rfl, hm⟩
  | box g s hf ih =>
    cases hr with
    | @box _ _ a c hr =>
      obtain ⟨π, o, r', rfl, hw, ho⟩ := ih (r := .borrowed a) hr
      exact ⟨.deref :: π, o, r', rfl, hw, ho⟩
  | component gs i g s hi hf ih =>
    cases hr with
    | compound hl hr =>
      obtain ⟨e, hc⟩ := exists_getElem? hl hi
      obtain ⟨π, o, r', rfl, hw, ho⟩ := ih (r := r.index i) (hr i g e hi hc)
      exact ⟨.index i :: π, o, r', rfl, by simpa [Content.walk, hc] using hw, ho⟩

/-- A part of the type and the same part of the content are replaced. -/
theorem put (hr : Refines false g c) (hf : g.follow s = .reached old)
    (hd : Refines false new d) : Refines false (g.replaceAt s new) (c.put s d) := by
  induction g, s, hf using Ty.reached_induction generalizing c with
  | here =>
    rw [Ty.replaceAt_nil, Content.put_nil]
    exact hd
  | box g s hf ih =>
    cases hr with
    | box hr => exact .box (ih hr)
  | component gs i g s hi hf ih =>
    cases hr with
    | @compound _ _ cs hl hr =>
      show Refines false (.compound (gs.modify i _)) (.compound (cs.modify i _))
      refine .compound (by simpa using hl) fun j g' c' hg' hc' => ?_
      rw [List.getElem?_modify, Option.map_eq_map, Option.map_eq_some_iff] at hc'
      obtain ⟨c₀, hc₀, rfl⟩ := hc'
      rcases Ty.component_of_modify hg' with ⟨g₀, rfl, hg₀, rfl⟩ | ⟨e, hg₀⟩
      · cases hi.symm.trans hg₀
        rw [if_pos rfl]
        exact ih (hr i g c₀ hi hc₀)
      · rw [if_neg e]
        exact hr j g' c₀ hg₀ hc₀

/-- A part that covers the old one gives a type that covers the old type. -/
theorem covers_replaceAt (hf : g.follow s = .reached old) (hc : Covers new old) :
    Covers (g.replaceAt s new) g := by
  induction g, s, hf using Ty.reached_induction with
  | here =>
    rw [Ty.replaceAt_nil]
    exact hc
  | box g s hf ih => exact covers_box ih
  | component gs i g s hi hf ih =>
    refine covers_compound (by simp) fun j u g' hu hg' => ?_
    rcases Ty.component_of_modify hu with ⟨g₀, rfl, hg₀, rfl⟩ | ⟨-, hg₀⟩
    · cases hi.symm.trans hg₀
      cases hi.symm.trans hg'
      exact ih
    · cases hg₀.symm.trans hg'
      exact fun _ _ hr => hr

/-! ### What the type tells -/

/-- The type knows of every borrow in the content, shadowed ones included. -/
theorem mem_borrows {o : Loan} (hr : Refines k g c) (ho : o ∈ c.loans) :
    ∃ b ∈ g.borrows, b.1 = o.mutable ∧ o.target ∈ b.2 := by
  induction hr with
  | unit => cases ho
  | int => cases ho
  | box _ ih => exact ih (by simpa using ho)
  | @borrow _ ps o' hm _ =>
    rw [Content.loans, List.mem_singleton] at ho
    subst ho
    exact ⟨(o.mutable, ps), by simp [Ty.borrows], rfl, hm⟩
  | @compound _ gs cs hl _ ih =>
    rw [Content.loans_compound, List.mem_flatMap] at ho
    obtain ⟨c, hc, ho⟩ := ho
    obtain ⟨i, hi⟩ := List.mem_iff_getElem?.1 hc
    obtain ⟨g, hg⟩ := exists_getElem? hl.symm hi
    obtain ⟨b, hb, h⟩ := ih i g c hg hi ho
    refine ⟨b, ?_, h⟩
    rw [Ty.borrows, Ty.allBorrows_eq, List.mem_flatMap]
    exact ⟨_, List.mem_of_getElem? hg, hb⟩
  | gone => cases ho
  | shadow _ ih => exact ih ho

theorem mem_borrowed {o : Loan} (hr : Refines k g c) (ho : o ∈ c.loans) :
    o.target ∈ g.borrowed := by
  obtain ⟨b, hb, -, hm⟩ := hr.mem_borrows ho
  exact List.mem_flatMap.2 ⟨b, hb, hm⟩

/-- What may be copied owns nothing, and no borrow in it is unique. -/
theorem of_copyable (hr : Refines k g c) (hg : g.copyable = true) :
    (∀ e, c.cells e = []) ∧ c ≠ .gone ∧
      ∀ o ∈ c.loans, o.mutable = false ∧ (k = false → o.stale = false) := by
  induction hr with
  | unit => simp [Content.cells, Content.loans]
  | int => simp [Content.cells, Content.loans]
  | box => cases hg
  | @borrow _ ps o hm hs =>
    refine ⟨fun _ => rfl, by simp, fun o' ho' => ?_⟩
    rw [Content.loans, List.mem_singleton] at ho'
    subst ho'
    exact ⟨by simpa [Ty.copyable] using hg, hs⟩
  | @compound k gs cs hl _ ih =>
    rw [Ty.copyable, Ty.allCopyable_eq, List.all_eq_true] at hg
    have each : ∀ c ∈ cs, (∀ e, c.cells e = []) ∧ c ≠ .gone ∧
        ∀ o ∈ c.loans, o.mutable = false ∧ (k = false → o.stale = false) := by
      intro c hc
      obtain ⟨i, hi⟩ := List.mem_iff_getElem?.1 hc
      obtain ⟨g, hgi⟩ := exists_getElem? hl.symm hi
      exact ih i g c hgi hi (hg g (List.mem_of_getElem? hgi))
    refine ⟨fun e => ?_, by simp, fun o ho => ?_⟩
    · rw [Content.cells_compound, List.flatMap_eq_nil_iff]
      exact fun c hc => (each c hc).1 e
    · rw [Content.loans_compound, List.mem_flatMap] at ho
      obtain ⟨c, hc, ho⟩ := ho
      exact (each c hc).2.2 o ho
  | gone => cases hg
  | shadow => cases hg

/-- What is defined is there. -/
theorem ne_gone (hr : Refines false g c) (hg : g.defined = true) : c ≠ .gone := by
  rintro rfl
  cases hr with
  | gone => cases hg
  | shadow => cases hg

/-- The copy that is left behind. -/
theorem age (hr : Refines k g c) : Refines true g c.age := by
  induction hr with
  | unit => exact .unit
  | int => exact .int
  | box _ ih => exact .box ih
  | @borrow _ ps o hm _ => exact .borrow (o := { o with stale := true }) hm nofun
  | @compound _ gs cs hl _ ih =>
    rw [Content.age, Content.ageAll_eq]
    refine .compound (by simpa using hl) fun i g c hg hc => ?_
    rw [List.getElem?_map, Option.map_eq_some_iff] at hc
    obtain ⟨c, hc, rfl⟩ := hc
    exact ih i g c hg hc
  | gone => exact .gone
  | shadow _ ih => exact .shadow ih

end Refines

end Ownership
