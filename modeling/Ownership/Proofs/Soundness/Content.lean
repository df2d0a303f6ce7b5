import Mathlib.Data.List.Basic
import Ownership.Machine.State
import Ownership.Proofs.Soundness.Heap

/-!
# Contents

What a variable holds, with all that it owns: the boxes inside it, what is in them, and for
each borrow the place that it was taken of. The machine knows a borrow by its
location only, and the checker knows a set of places that it may have been taken of; a content
says which one it was.

* `Content.value`, `Content.cells`, `Content.loans`: the value in the cell, the cells of the boxes,
  and the borrows.
* `Content.walk`: the part of a content at the end of a path, and its location.
* `Content.put`: a content with another part. What one of these does to `walk`, to the
  borrows and to the cells is told by `walk_put`, `loans_put` and `exchanged_put`.
* `Content.finalize`: **dropping a content frees its cells**, and no others.
-/

namespace Ownership

/-- A borrow of the place `target`, found at `location`. It is `stale` if it has been moved on and
a copy was left behind. -/
structure Loan where
  stale : Bool
  mutable : Bool
  target : Place
  location : Reference
  deriving DecidableEq

inductive Content where
  | unit
  | int (n : Int)
  /-- Nothing is left. -/
  | gone
  | loan (loan : Loan)
  | box (address : Nat) (inner : Content)
  | compound (components : List Content)

namespace Content

@[elab_as_elim, induction_eliminator]
theorem induction {motive : Content → Prop} (unit : motive .unit) (int : ∀ n, motive (.int n))
    (gone : motive .gone) (loan : ∀ o, motive (.loan o)) (box : ∀ a c, motive c → motive (.box a c))
    (compound : ∀ cs, (∀ c ∈ cs, motive c) → motive (.compound cs)) : ∀ c, motive c :=
  Content.rec (motive_1 := motive) (motive_2 := fun cs => ∀ c ∈ cs, motive c)
    unit int gone loan box compound (fun _ m => absurd m List.not_mem_nil)
    fun _ _ h hs _ m => (List.mem_cons.1 m).elim (fun e => e ▸ h) (hs _)

mutual

/-- The value in the cell. -/
def value : Content → Value
  | unit => .unit
  | int n => .int n
  | gone => .undefined
  | loan o => .ref o.location.toBorrow
  | box a _ => .ref (.owned a)
  | compound cs => .compound (values cs)

def values : List Content → List Value
  | [] => []
  | c :: cs => c.value :: values cs

end

mutual

/-- The cells of the boxes in the content, nested ones included, in the heap `g`. -/
def cells (g : Lifetime) : Content → List (Nat × Cell)
  | unit | int _ | gone | loan _ => []
  | box a c => (a, ⟨g, c.value⟩) :: c.cells g
  | compound cs => allCells g cs

def allCells (g : Lifetime) : List Content → List (Nat × Cell)
  | [] => []
  | c :: cs => c.cells g ++ allCells g cs

end

mutual

/-- The borrows in the content and in its boxes. -/
def loans : Content → List Loan
  | unit | int _ | gone => []
  | loan o => [o]
  | box _ c => c.loans
  | compound cs => allLoans cs

def allLoans : List Content → List Loan
  | [] => []
  | c :: cs => c.loans ++ allLoans cs

end

mutual

/-- The copy of a content that is left behind when it has been moved on. -/
def age : Content → Content
  | unit => unit
  | int n => int n
  | gone => gone
  | loan o => loan { o with stale := true }
  | box a c => box a c.age
  | compound cs => compound (ageAll cs)

def ageAll : List Content → List Content
  | [] => []
  | c :: cs => c.age :: ageAll cs

end

theorem values_eq (cs : List Content) : values cs = cs.map value := by
  induction cs with
  | nil => rfl
  | cons c cs ih => simp [values, ih]

theorem allCells_eq (g : Lifetime) (cs : List Content) : allCells g cs = cs.flatMap (cells g) := by
  induction cs with
  | nil => rfl
  | cons c cs ih => simp [allCells, ih]

theorem allLoans_eq (cs : List Content) : allLoans cs = cs.flatMap loans := by
  induction cs with
  | nil => rfl
  | cons c cs ih => simp [allLoans, ih]

theorem ageAll_eq (cs : List Content) : ageAll cs = cs.map age := by
  induction cs with
  | nil => rfl
  | cons c cs ih => simp [ageAll, ih]

@[simp] theorem value_compound (cs : List Content) :
    (compound cs).value = .compound (cs.map value) := by
  rw [value, values_eq]

@[simp] theorem cells_compound (g : Lifetime) (cs : List Content) :
    (compound cs).cells g = cs.flatMap (cells g) := by
  rw [cells, allCells_eq]

@[simp] theorem loans_compound (cs : List Content) :
    (compound cs).loans = cs.flatMap loans := by
  rw [loans, allLoans_eq]

@[simp] theorem cells_box (g : Lifetime) (a : Nat) (c : Content) :
    (box a c).cells g = (a, ⟨g, c.value⟩) :: c.cells g := by rw [cells]

@[simp] theorem loans_box (a : Nat) (c : Content) : (box a c).loans = c.loans := by rw [loans]

/-- A copy has the same value, no boxes of its own if there were none, and stale borrows. -/
theorem value_age (c : Content) : c.age.value = c.value := by
  induction c with
  | compound cs ih =>
    rw [age, ageAll_eq, value_compound, value_compound, List.map_map]
    exact congrArg _ (List.map_congr_left ih)
  | _ => rfl

theorem cells_age (g : Lifetime) (c : Content) : c.age.cells g = c.cells g := by
  induction c with
  | compound cs ih =>
    rw [age, ageAll_eq, cells_compound, cells_compound, List.flatMap_map]
    exact List.flatMap_congr ih
  | box a c ih => rw [age, cells_box, cells_box, value_age, ih]
  | _ => rfl

theorem loans_age (c : Content) : c.age.loans = c.loans.map fun o => { o with stale := true } := by
  induction c with
  | compound cs ih =>
    rw [age, ageAll_eq, loans_compound, loans_compound, List.flatMap_map, List.map_flatMap]
    exact List.flatMap_congr ih
  | box a c ih => rw [age, loans_box, loans_box, ih]
  | _ => rfl

/-! ### Paths -/

/-- The part of a content that a path leads to through boxes and components, and its location.
The content itself is stored at the location `r`. -/
def walk : Content → Reference → List Selector → Option (Content × Reference)
  | c, r, [] => some (c, r)
  | box a c, _, .deref :: s => c.walk (.borrowed a) s
  | compound cs, r, .index i :: s => cs[i]?.bind fun c => c.walk (r.index i) s
  | _, _, _ :: _ => none

/-- The content with `new` in the stead of the part that a path leads to. -/
def put : Content → List Selector → Content → Content
  | _, [], new => new
  | box a c, .deref :: s, new => box a (c.put s new)
  | compound cs, .index i :: s, new => compound (cs.modify i fun c => c.put s new)
  | c, _ :: _, _ => c

@[simp] theorem walk_nil (c : Content) (r : Reference) : c.walk r [] = some (c, r) := by
  cases c <;> rfl

@[simp] theorem put_nil (c new : Content) : c.put [] new = new := by
  cases c <;> rfl

variable {c d new old : Content} {cs : List Content} {r r' : Reference} {s s' : List Selector}

/-- A path that goes on leads into a box or into a component. -/
theorem walk_cons {x : Selector} (h : c.walk r (x :: s) = some (d, r')) :
    (∃ a e, c = box a e ∧ x = .deref ∧ e.walk (.borrowed a) s = some (d, r')) ∨
      ∃ cs i e, c = compound cs ∧ x = .index i ∧ cs[i]? = some e ∧
        e.walk (r.index i) s = some (d, r') := by
  cases c with
  | box a e =>
    cases x with
    | deref => exact .inl ⟨a, e, rfl, rfl, h⟩
    | index i => cases h
  | compound cs =>
    cases x with
    | deref => cases h
    | index i =>
      obtain ⟨e, he, h⟩ := Option.bind_eq_some_iff.1 h
      exact .inr ⟨cs, i, e, rfl, rfl, he, h⟩
  | _ => cases x <;> cases h

/-! ### Another part -/

/-- The place of the part stays, and so does every place that is not below it. A borrow there
is the same as before. -/
theorem walk_put (new : Content) (h : c.walk r s = some (old, r')) {t : List Selector} {e : Content}
    {re : Reference} (ht : c.walk r t = some (e, re)) (hs : s <+: t → t = s) :
    ∃ e', (c.put s new).walk r t = some (e', re) ∧ ((t = s ∧ e' = new) ∨
      (¬ s <+: t ∧ ∀ o, e = loan o → e' = loan o)) := by
  induction s generalizing c r t with
  | nil =>
    have e := hs List.nil_prefix
    subst e
    rw [walk_nil] at ht
    cases ht
    exact ⟨new, by simp, .inl ⟨rfl, rfl⟩⟩
  | cons x s ih =>
    -- the other path ends above the part, where a borrow cannot be
    cases t with
    | nil =>
      rw [walk_nil] at ht
      cases ht
      refine ⟨_, walk_nil .., .inr ⟨by simp, ?_⟩⟩
      rintro o rfl
      rcases walk_cons h with ⟨_, _, e, -⟩ | ⟨_, _, _, e, -⟩ <;> cases e
    | cons y t =>
      have hs' : x = y → s <+: t → t = s := by
        rintro rfl hp
        exact (List.cons.inj (hs (List.cons_prefix_cons.2 ⟨rfl, hp⟩))).2
      -- both paths take the same step
      have lift : ∀ {e'}, x = y →
          ((t = s ∧ e' = new) ∨ (¬ s <+: t ∧ ∀ o, e = loan o → e' = loan o)) →
          ((y :: t = x :: s ∧ e' = new) ∨
            (¬ x :: s <+: y :: t ∧ ∀ o, e = loan o → e' = loan o)) := by
        rintro e' rfl (⟨rfl, he⟩ | ⟨hn, he⟩)
        · exact .inl ⟨rfl, he⟩
        · exact .inr ⟨fun hp => hn (List.cons_prefix_cons.1 hp).2, he⟩
      rcases walk_cons h with ⟨a, d, rfl, rfl, h⟩ | ⟨cs, i, d, rfl, rfl, hd, h⟩
      · rcases walk_cons ht with ⟨a', d', e', rfl, ht⟩ | ⟨_, _, _, e', -⟩
        · cases e'
          obtain ⟨e', hw, he⟩ := ih h ht (hs' rfl)
          exact ⟨e', hw, lift rfl he⟩
        · cases e'
      · rcases walk_cons ht with ⟨_, _, e', -⟩ | ⟨cs', j, d', e', rfl, hd', ht⟩
        · cases e'
        · cases e'
          by_cases hij : i = j
          · subst hij
            rw [hd] at hd'
            cases hd'
            obtain ⟨e', hw, he⟩ := ih h ht (hs' rfl)
            refine ⟨e', ?_, lift rfl he⟩
            show ((cs.modify i _)[i]?.bind _) = _
            rw [List.getElem?_modify, hd]
            simpa using hw
          · -- another component is not touched
            refine ⟨e, ?_, .inr ⟨fun hp => hij ?_, fun o ho => ho⟩⟩
            · show ((cs.modify i _)[j]?.bind _) = _
              rw [List.getElem?_modify, hd']
              simpa [hij] using ht
            · cases (List.cons_prefix_cons.1 hp).1
              rfl

theorem flatMap_modify_perm {α β : Type} (f : α → List β) {l : List α} {i : Nat} {x : α}
    (g : α → α) (h : l[i]? = some x) {ys zs : List β} (hp : (f (g x) ++ ys).Perm (f x ++ zs)) :
    ((l.modify i g).flatMap f ++ ys).Perm (l.flatMap f ++ zs) := by
  induction l generalizing i with
  | nil => simp at h
  | cons y l ih =>
    cases i with
    | zero =>
      simp only [List.getElem?_cons_zero, Option.some.injEq] at h
      subst h
      simp only [List.modify_zero_cons, List.flatMap_cons, List.append_assoc]
      refine (List.Perm.append_left _ List.perm_append_comm).trans ?_
      rw [← List.append_assoc]
      refine (hp.append_right _).trans ?_
      rw [List.append_assoc]
      exact List.Perm.append_left _ List.perm_append_comm
    | succ i =>
      simp only [List.getElem?_cons_succ] at h
      simp only [List.modify_succ_cons, List.flatMap_cons, List.append_assoc]
      exact (ih h).append_left _

/-- What the new part holds takes the stead of what the old one held. -/
theorem loans_put (h : c.walk r s = some (old, r')) (new : Content) :
    ((c.put s new).loans ++ old.loans).Perm (c.loans ++ new.loans) := by
  induction s generalizing c r with
  | nil =>
    rw [walk_nil] at h
    cases h
    rw [put_nil]
    exact List.perm_append_comm
  | cons x s ih =>
    rcases walk_cons h with ⟨a, d, rfl, rfl, h⟩ | ⟨cs, i, d, rfl, rfl, hd, h⟩
    · show ((box a (d.put s new)).loans ++ _).Perm _
      simpa using ih h
    · show ((compound (cs.modify i _)).loans ++ _).Perm _
      rw [loans_compound, loans_compound]
      exact flatMap_modify_perm loans _ hd (ih h)

/-- The parts of a content hold nothing that it does not hold. -/
theorem mem_loans_of_walk {o : Loan} (h : c.walk r s = some (d, r')) (ho : o ∈ d.loans) :
    o ∈ c.loans := by
  have hp := (loans_put h gone).mem_iff (a := o)
  simp only [loans, List.append_nil, List.mem_append] at hp
  exact hp.1 (.inr ho)

/-- Two borrows in different places of a content are two of its borrows. -/
theorem pairwise_walk {R : Loan → Loan → Prop} (hR : ∀ {o o'}, R o o' → R o' o)
    (hp : c.loans.Pairwise R) {o o' : Loan} {t : List Selector} {r₁ r₂ : Reference}
    (h : c.walk r s = some (loan o, r₁)) (h' : c.walk r t = some (loan o', r₂)) (hne : s ≠ t) :
    R o o' := by
  induction s generalizing c r t with
  | nil =>
    rw [walk_nil] at h
    cases h
    -- nothing is below a borrow, so neither path ends on the other
    cases t with
    | nil => exact absurd rfl hne
    | cons y t => cases y <;> cases h'
  | cons x s ih =>
    cases t with
    | nil =>
      rw [walk_nil] at h'
      cases h'
      cases x <;> cases h
    | cons y t =>
      rcases walk_cons h with ⟨a, d, rfl, rfl, h⟩ | ⟨cs, i, d, rfl, rfl, hd, h⟩
      · rcases walk_cons h' with ⟨a', d', e', rfl, h'⟩ | ⟨_, _, _, e', -⟩
        · cases e'
          rw [loans_box] at hp
          exact ih hp h h' fun e => hne (e ▸ rfl)
        · cases e'
      · rcases walk_cons h' with ⟨_, _, e', -⟩ | ⟨cs', j, d', e', rfl, hd', h'⟩
        · cases e'
        · cases e'
          rw [loans_compound, List.pairwise_flatMap] at hp
          by_cases hij : i = j
          · subst hij
            rw [hd] at hd'
            cases hd'
            exact ih (hp.1 d (List.mem_of_getElem? hd)) h h' fun e => hne (e ▸ rfl)
          · -- the paths part here: the borrows are in different components
            have ho : o ∈ d.loans := mem_loans_of_walk h (by simp [loans])
            have ho' : o' ∈ d'.loans := mem_loans_of_walk h' (by simp [loans])
            obtain ⟨hi, rfl⟩ := List.getElem?_eq_some_iff.1 hd
            obtain ⟨hj, rfl⟩ := List.getElem?_eq_some_iff.1 hd'
            have hpw := List.pairwise_iff_getElem.1 hp.2
            rcases Nat.lt_or_gt_of_ne hij with hlt | hgt
            · exact hpw i j hi hj hlt o ho o' ho'
            · exact hR (hpw j i hj hi hgt o' ho' o ho)

/-! ### Cells -/

/-- **Another part at the end of a path is another value in one cell.** The content itself is stored
at `r`, in a cell with the value `w`. -/
theorem exchanged_put {g k : Lifetime} {w : Value} (h : c.walk r s = some (old, r')) (new : Content)
    (hw : w.select? r.path = some c.value) :
    ∃ w', w.replaceAt? r.path (c.put s new).value = some w' ∧
      Exchanged r' old.value new.value ((r.address, ⟨k, w⟩) :: (c.cells g ++ new.cells g))
        ((r.address, ⟨k, w'⟩) :: ((c.put s new).cells g ++ old.cells g)) := by
  induction s generalizing c r k w with
  | nil =>
    rw [walk_nil] at h
    cases h
    obtain ⟨w', hw'⟩ := Value.exists_replaceAt? hw new.value
    rw [put_nil]
    exact ⟨w', hw', k, w, w', _, hw, hw', .rfl, .cons _ List.perm_append_comm⟩
  | cons x s ih =>
    rcases walk_cons h with ⟨a, d, rfl, rfl, h⟩ | ⟨cs, i, d, rfl, rfl, hd, h⟩
    · -- behind the box, the cell of the box is the one around
      obtain ⟨v, hv, hx⟩ := ih (k := g) (w := d.value) h
        (by simp [Reference.borrowed, Value.select?])
      simp only [Reference.borrowed, Value.replaceAt?, Option.some.injEq] at hv
      subst hv
      refine ⟨w, Value.replaceAt?_self hw, (hx.append [(r.address, ⟨k, w⟩)]).congr ?_ ?_⟩
      · exact (List.perm_append_singleton _ _).symm
      · exact (List.perm_append_singleton _ _).symm
    · obtain ⟨hi, e⟩ := List.getElem?_eq_some_iff.1 hd
      have hsel : w.select? (r.index i).path = some d.value := by
        simp only [Reference.index, Value.select?_append, hw, Option.bind_some, value_compound,
          Value.select?, List.getElem?_map, hd, Option.map_some]
      obtain ⟨w', hw', hx⟩ := ih (k := k) h hsel
      -- the value of one component changes, in the same cell
      have hput : (compound cs).put (.index i :: s) new = compound (cs.set i (d.put s new)) := by
        show compound (cs.modify i _) = _
        rw [List.modify_eq_take_cons_drop hi, List.set_eq_take_append_cons_drop, if_pos hi, e]
      refine ⟨w', ?_, (hx.append ((cs.take i ++ cs.drop (i + 1)).flatMap (cells g))).congr ?_ ?_⟩
      · -- to replace the component's part is to replace the component
        rw [← hw', Reference.index]
        refine (Value.replaceAt?_append hw ?_).symm
        simp [hput, Value.replaceAt?, hd, List.map_set]
      · rw [cells_compound]
        conv => lhs; rw [← List.take_append_drop i cs, List.drop_eq_getElem_cons hi, e]
        refine List.perm_iff_count.2 fun y => ?_
        simp only [Reference.index, List.flatMap_append, List.flatMap_cons, List.count_append,
          List.count_cons]
        omega
      · rw [hput, cells_compound, List.set_eq_take_append_cons_drop, if_pos hi]
        refine List.perm_iff_count.2 fun y => ?_
        simp only [Reference.index, List.flatMap_append, List.flatMap_cons, List.count_append,
          List.count_cons]
        omega

/-- The location at the end of a path lies in the cell of the content or in one of its boxes. -/
theorem address_walk {g : Lifetime} {a : Nat} (h : c.walk (.borrowed a) s = some (d, r')) :
    r'.address = a ∨ r'.address ∈ (c.cells g).map Prod.fst := by
  -- the location is that of an entry, since a part could be put there
  obtain ⟨_, -, l, v, v', rest, -, -, hp, -⟩ :=
    exchanged_put (g := g) (k := g) (w := c.value) h gone
    (by simp [Reference.borrowed, Value.select?])
  have hm := hp.mem_iff.2 List.mem_cons_self
  simp only [Reference.borrowed, cells, List.append_nil, List.mem_cons, Prod.mk.injEq] at hm
  rcases hm with ⟨e, -⟩ | hm
  · exact .inl e
  · exact .inr (List.mem_map.2 ⟨_, hm, rfl⟩)

theorem owner_walk (h : c.walk r s = some (d, r')) (hr : r.owner = false) : r'.owner = false := by
  induction s generalizing c r with
  | nil =>
    rw [walk_nil] at h
    cases h
    exact hr
  | cons x s ih =>
    rcases walk_cons h with ⟨a, e, rfl, rfl, h⟩ | ⟨cs, i, e, rfl, rfl, -, h⟩
    · exact ih h rfl
    · exact ih h rfl

/-- The machine follows the path to the same location. -/
theorem follow_walk {g k : Lifetime} {w : Value} {st : Store} (h : c.walk r s = some (d, r'))
    (hc : st.cell? r.address = some ⟨k, w⟩) (hw : w.select? r.path = some c.value)
    (hg : ∀ e ∈ c.cells g, st.cell? e.1 = some e.2) : s.foldlM (State.follow st) r = .ok r' := by
  induction s generalizing c r k w with
  | nil =>
    rw [walk_nil] at h
    cases h
    rfl
  | cons x s ih =>
    rw [List.foldlM_cons]
    rcases walk_cons h with ⟨a, e, rfl, rfl, h⟩ | ⟨cs, i, e, rfl, rfl, he, h⟩
    · -- the machine reads the box and goes on in its cell
      have hr : st.read r = .ok (.ref (.owned a)) := Store.read_ok.2 ⟨_, hc, hw⟩
      have hf : State.follow st r .deref = .ok (.borrowed a) := by
        rw [State.follow, hr]
        rfl
      rw [hf, Traced.ok_bind]
      rw [cells_box] at hg
      exact ih h (hg _ List.mem_cons_self) (by simp [Reference.borrowed, Value.select?])
        fun e he => hg e (List.mem_cons_of_mem _ he)
    · -- a component is in the same cell
      rw [State.follow, Traced.ok_bind]
      refine ih h hc ?_ fun y hy => hg y ?_
      · simp [Reference.index, Value.select?_append, hw, Value.select?, he]
      · rw [cells_compound]
        exact List.mem_flatMap.2 ⟨e, List.mem_of_getElem? he, hy⟩

/-- A reference in a value of the content is one of its boxes or one of its borrows. -/
theorem mem_references {g : Lifetime} {x : Reference} (h : x ∈ c.value.references) :
    x.address ∈ (c.cells g).map Prod.fst ∨ ∃ o ∈ c.loans, x.address = o.location.address := by
  induction c with
  | unit => cases h
  | int => cases h
  | gone => cases h
  | loan o =>
    simp only [value, Value.references, Value.pushReferences, List.mem_singleton] at h
    exact .inr ⟨o, by simp [loans], by rw [h]; rfl⟩
  | box a c =>
    simp only [value, Value.references, Value.pushReferences, List.mem_singleton] at h
    exact .inl (by simp [h, Reference.owned])
  | compound cs ih =>
    rw [value_compound, Value.references_compound, List.flatMap_map] at h
    obtain ⟨c, hc, h⟩ := List.mem_flatMap.1 h
    rcases ih c hc h with hx | ⟨o, ho, e⟩
    · obtain ⟨e, he, hx⟩ := List.mem_map.1 hx
      refine .inl (List.mem_map.2 ⟨e, ?_, hx⟩)
      rw [cells_compound]
      exact List.mem_flatMap.2 ⟨c, hc, he⟩
    · refine .inr ⟨o, ?_, e⟩
      rw [loans_compound]
      exact List.mem_flatMap.2 ⟨c, hc, ho⟩

/-- So is a reference in one of its cells. -/
theorem mem_references_cells {g : Lifetime} {x : Reference} {e : Nat × Cell} (he : e ∈ c.cells g)
    (h : x ∈ e.2.value.references) :
    x.address ∈ (c.cells g).map Prod.fst ∨ ∃ o ∈ c.loans, x.address = o.location.address := by
  induction c with
  | box a c ih =>
    rw [cells_box] at he ⊢
    rw [loans_box]
    have hx : x.address ∈ (c.cells g).map Prod.fst ∨
        ∃ o ∈ c.loans, x.address = o.location.address := by
      rcases List.mem_cons.1 he with rfl | he
      · exact mem_references h
      · exact ih he
    exact hx.imp_left fun hx => List.mem_cons_of_mem _ hx
  | compound cs ih =>
    rw [cells_compound] at he ⊢
    obtain ⟨c, hc, he⟩ := List.mem_flatMap.1 he
    rcases ih c hc he with hx | ⟨o, ho, e⟩
    · obtain ⟨y, hy, hx⟩ := List.mem_map.1 hx
      exact .inl (List.mem_map.2 ⟨y, List.mem_flatMap.2 ⟨c, hc, hy⟩, hx⟩)
    · refine .inr ⟨o, ?_, e⟩
      rw [loans_compound]
      exact List.mem_flatMap.2 ⟨c, hc, ho⟩
  | _ => cases he

/-! ### Dropping -/

mutual

/-- The outermost boxes in the content. -/
def boxes : Content → List (Nat × Content)
  | unit | int _ | gone | loan _ => []
  | box a c => [(a, c)]
  | compound cs => allBoxes cs

def allBoxes : List Content → List (Nat × Content)
  | [] => []
  | c :: cs => c.boxes ++ allBoxes cs

end

theorem boxes_compound (cs : List Content) : (compound cs).boxes = cs.flatMap boxes := by
  rw [boxes]
  induction cs with
  | nil => rfl
  | cons c cs ih => simp [allBoxes, ih]

theorem owned_value (c : Content) : c.value.owned = c.boxes.map Prod.fst := by
  induction c with
  | compound cs ih =>
    rw [value_compound, Value.owned_compound, boxes_compound, List.flatMap_map, List.map_flatMap]
    exact List.flatMap_congr ih
  | _ => rfl

theorem cells_eq (g : Lifetime) (c : Content) :
    c.cells g = c.boxes.flatMap fun b => (box b.1 b.2).cells g := by
  induction c with
  | box a c => rw [boxes, List.flatMap_singleton]
  | compound cs ih =>
    rw [cells_compound, boxes_compound, List.flatMap_assoc]
    exact List.flatMap_congr ih
  | _ => rfl

/-- What owns nothing has no boxes. -/
theorem cells_of_containsOwner (g : Lifetime) (h : c.value.containsOwner = false) :
    c.cells g = [] := by
  have hb : c.boxes = [] := by
    rw [← List.map_eq_nil_iff, ← owned_value, Value.owned_of_containsOwner h]
  rw [cells_eq, hb, List.flatMap_nil]

theorem containsOwner_of_cells {g : Lifetime} (h : c.cells g = []) :
    c.value.containsOwner = false := by
  cases hc : c.value.containsOwner with
  | false => rfl
  | true =>
    obtain ⟨x, hx, ho⟩ := Value.containsOwner_iff.1 hc
    have hm : x.address ∈ c.value.owned :=
      List.mem_map_of_mem (List.mem_filter.2 ⟨hx, ho⟩)
    rw [owned_value] at hm
    obtain ⟨b, hb, -⟩ := List.mem_map.1 hm
    rw [cells_eq, List.flatMap_eq_nil_iff] at h
    have := h b hb
    rw [cells_box] at this
    cases this

/-- Every box is owned once, by the value of the content or by the value in one of its cells. -/
theorem count_owned (g : Lifetime) (c : Content) (a : Nat) :
    ((c.cells g).flatMap fun e => e.2.value.owned).count a + c.value.owned.count a =
      ((c.cells g).map Prod.fst).count a := by
  induction c with
  | box b c ih =>
    rw [cells_box, List.flatMap_cons, List.map_cons, List.count_append, List.count_cons]
    simp only [value, Value.owned_box, List.count_singleton]
    omega
  | compound cs ih =>
    rw [cells_compound, value_compound, Value.owned_compound]
    induction cs with
    | nil => rfl
    | cons c cs ihs =>
      have h₁ := ih c List.mem_cons_self
      have h₂ := ihs fun d hd => ih d (List.mem_cons_of_mem _ hd)
      simp only [List.flatMap_cons, List.map_cons, List.flatMap_append, List.map_append,
        List.count_append] at h₁ h₂ ⊢
      omega
  | _ => rfl

theorem release {g : Lifetime} {n : Nat} {st : Store} {bs : List (Nat × Content)}
    {es : List (Nat × Cell)} (hn : st.liveCount ≤ n)
    (h : st.Holds (bs.flatMap (fun b => (box b.1 b.2).cells g) ++ es)) :
    ∃ x, st.release n (bs.map Prod.fst) = .ok x ∧ x.1.Holds es := by
  induction n generalizing st bs with
  | zero =>
    cases bs with
    | nil => exact ⟨(st, 0), rfl, h⟩
    | cons b bs =>
      rw [List.flatMap_cons, cells_box] at h
      -- a box is left, so some cell is still live
      have := Store.Balanced.liveCount_free h.cell_head
      omega
  | succ n ih =>
    cases bs with
    | nil => exact ⟨(st, 0), by simp [Store.release], h⟩
    | cons b bs =>
      rw [List.flatMap_cons, cells_box] at h
      have hs := Store.Balanced.liveCount_free h.cell_head
      -- the boxes in the first one are released next
      have hp : ((b.2.boxes.reverse ++ bs).flatMap (fun b => (box b.1 b.2).cells g) ++ es).Perm
          (b.2.cells g ++ bs.flatMap (fun b => (box b.1 b.2).cells g) ++ es) := by
        rw [List.flatMap_append, cells_eq g b.2]
        exact ((List.Perm.flatMap_right _ (List.reverse_perm _)).append_right _).append_right _
      obtain ⟨x, hx, hh⟩ := ih (by omega) (h.free.congr hp.symm)
      refine ⟨(x.1, x.2 + 1), ?_, hh⟩
      rw [List.map_append, List.map_reverse] at hx
      simp only [List.map_cons, Store.release, Store.cell_ok.2 h.cell_head, Traced.ok_bind,
        owned_value, hx]
      rfl

/-- **Dropping contents frees their cells**, and no others. -/
theorem finalize {g : Lifetime} {st : Store} {es : List (Nat × Cell)}
    (h : st.Holds (cs.flatMap (cells g) ++ es)) :
    ∃ x, st.finalize (cs.map value) = .ok x ∧ x.1.Holds es := by
  -- the worklist starts with the outermost boxes, in reverse
  have hw : ((cs.map value).flatMap Value.owned).reverse =
      ((compound cs).boxes.reverse).map Prod.fst := by
    rw [List.map_reverse, ← owned_value, value_compound, Value.owned_compound]
  have hp : ((compound cs).boxes.reverse.flatMap (fun b => (box b.1 b.2).cells g) ++ es).Perm
      (cs.flatMap (cells g) ++ es) := by
    rw [← cells_compound, cells_eq g (compound cs)]
    exact (List.Perm.flatMap_right _ (List.reverse_perm _)).append_right _
  rw [Store.finalize, hw]
  exact release (Nat.le_refl _) (h.congr hp.symm)

end Content

end Ownership
