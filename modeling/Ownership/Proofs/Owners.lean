import Ownership.Proofs.Cells

/-!
# Counting owners

A heap is in balance with the values that are held outside of it if every address
has as many owners as are due: one for the cell of a box, none for any other cell and for a
hole (`Balanced`). Every change that the machine makes to the heap keeps the balance,
as long as the values that leave cells are counted as held.

* `owned_iff`: balance is single ownership.
* `Balanced.exchange`: a write hands out the value that it overwrites.
* `Balanced.finalize`: **what is held can be freed**: each cell is met once, even where boxes own
  each other in a circle.
-/

namespace Ownership

theorem count_flatMap_set {α : Type} (f : α → List Nat) (x : Nat) {l : List α} {i : Nat} {u : α}
    (h : l[i]? = some u) (w : α) :
    ((l.set i w).flatMap f).count x + (f u).count x = (l.flatMap f).count x + (f w).count x := by
  induction l generalizing i with
  | nil => simp at h
  | cons y l ih =>
    cases i with
    | zero =>
      simp only [List.getElem?_cons_zero, Option.some.injEq] at h
      subst h
      simp only [List.set_cons_zero, List.flatMap_cons, List.count_append]
      omega
    | succ i =>
      have := ih (by simpa using h)
      simp only [List.set_cons_succ, List.flatMap_cons, List.count_append]
      omega

namespace Value

theorem owned_compound (vs : List Value) : (compound vs).owned = vs.flatMap owned := by
  simp only [owned, references_compound]
  induction vs with
  | nil => rfl
  | cons v vs ih => simp [ih, owned]

@[simp] theorem owned_unit : unit.owned = [] := rfl

@[simp] theorem owned_undefined : undefined.owned = [] := rfl

@[simp] theorem owned_borrow (r : Reference) : (ref r.toBorrow).owned = [] := rfl

@[simp] theorem owned_box (a : Nat) : (ref (.owned a)).owned = [a] := rfl

theorem owned_of_containsOwner {v : Value} (h : v.containsOwner = false) : v.owned = [] := by
  rw [owned, List.map_eq_nil_iff, List.filter_eq_nil_iff]
  intro r hr ho
  have := containsOwner_iff.2 ⟨r, hr, ho⟩
  rw [h] at this
  cases this

/-- What a part of a value owned is exchanged for what the new part owns. -/
theorem count_owned_replaceAt? (x : Nat) {v w old new : Value} {path : List Nat}
    (hs : v.select? path = some old) (hr : v.replaceAt? path new = some w) :
    w.owned.count x + old.owned.count x = v.owned.count x + new.owned.count x := by
  induction path generalizing v w with
  | nil =>
    simp only [select?, replaceAt?, Option.some.injEq] at hs hr
    subst hs hr
    omega
  | cons i path ih =>
    cases v with
    | compound vs =>
      simp only [select?, Option.bind_eq_some_iff] at hs
      obtain ⟨u, hu, hs⟩ := hs
      simp only [replaceAt?, hu, Option.bind_some, Option.map_eq_some_iff] at hr
      obtain ⟨u', hr, rfl⟩ := hr
      have h₁ := ih hs hr
      have h₂ := count_flatMap_set owned x hu u'
      rw [owned_compound, owned_compound]
      omega
    | _ => simp [select?] at hs

end Value

namespace Store

variable {s s' : Store} {a : Nat} {c : Cell} {r : Reference} {v old : Value} {vs ws : List Value}
variable {l : Lifetime}

/-- The addresses that the content of a cell owns. -/
def ownedIn : Option Cell → List Nat
  | some c => c.value.owned
  | none => []

/-- The addresses owned by the live cells. -/
def owned (s : Store) : List Nat := s.cells.toList.flatMap ownedIn

theorem owned_eq (s : Store) : s.owned = s.live.flatMap fun c => c.value.owned := by
  rw [owned, live]
  induction s.cells.toList with
  | nil => rfl
  | cons c cs ih =>
    cases c with
    | none => simpa [ownedIn] using ih
    | some c => simpa [ownedIn] using ih

theorem mem_owned : a ∈ s.owned ↔ ∃ b c, s.cell? b = some c ∧ a ∈ c.value.owned := by
  rw [owned_eq, List.mem_flatMap]
  constructor
  · rintro ⟨c, hc, ha⟩
    obtain ⟨b, hb⟩ := mem_live.1 hc
    exact ⟨b, c, hb, ha⟩
  · rintro ⟨b, c, hb, ha⟩
    exact ⟨c, mem_live.2 ⟨b, hb⟩, ha⟩

theorem owners_eq (s : Store) (vs : List Value) :
    s.owners vs = s.owned ++ vs.flatMap Value.owned := by
  have parts : ∀ ws : List Value,
      ((ws.flatMap Value.references).filter (·.owner)).map (·.address) =
        ws.flatMap Value.owned := by
    intro ws
    induction ws with
    | nil => rfl
    | cons w ws ih => simp [← ih, Value.owned]
  rw [owners, held, parts, List.flatMap_append, owned_eq, List.flatMap_map]

/-- How many owners an address must have. -/
def due (s : Store) (a : Nat) : Nat := (s.cell? a).elim 0 ownersDue

/-- **The heap is in balance** with the values held outside of it. -/
def Balanced (s : Store) (vs : List Value) : Prop := ∀ a, (s.owners vs).count a = s.due a

/-- **Single ownership.** Every owner points to the cell of a box, each of these has one owner, and
no other cell has any. -/
structure Owned (s : Store) (vs : List Value) : Prop where
  target : ∀ a ∈ s.owners vs, ∃ c, s.cells[a]? = some (some c) ∧ c.lifetime.isRoot = true
  box : ∀ a c, s.cells[a]? = some (some c) → c.lifetime.isRoot = true → (s.owners vs).count a = 1
  other : ∀ a c, s.cells[a]? = some (some c) → c.lifetime.isRoot = false →
    (s.owners vs).count a = 0

theorem owned_iff : s.Owned vs ↔ s.Balanced vs := by
  constructor
  · intro h a
    rw [due]
    cases hc : s.cell? a with
    | none =>
      refine List.count_eq_zero.2 fun ha => ?_
      obtain ⟨c, e, -⟩ := h.target a ha
      rw [cell?_eq_some.2 e] at hc
      cases hc
    | some c =>
      rw [Option.elim_some, ownersDue]
      cases hr : c.lifetime.isRoot with
      | true => exact h.box a c (cell?_eq_some.1 hc) hr
      | false => exact h.other a c (cell?_eq_some.1 hc) hr
  · intro h
    have due_eq : ∀ {a c}, s.cells[a]? = some (some c) → s.due a = ownersDue c := by
      intro a c e
      rw [due, cell?_eq_some.2 e, Option.elim_some]
    refine ⟨fun a ha => ?_, fun a c e hr => ?_, fun a c e hr => ?_⟩
    · have hd : s.due a ≠ 0 := h a ▸ Nat.ne_of_gt (List.count_pos_iff.2 ha)
      cases hc : s.cell? a with
      | none => simp [due, hc] at hd
      | some c =>
        refine ⟨c, cell?_eq_some.1 hc, ?_⟩
        rw [due_eq (cell?_eq_some.1 hc), ownersDue] at hd
        by_cases hr : c.lifetime.isRoot = true
        · exact hr
        · simp [hr] at hd
    · rw [h a, due_eq e, ownersDue, if_pos hr]
    · rw [h a, due_eq e, ownersDue, if_neg (by simp [hr])]

namespace Balanced

theorem count_eq (h : s.Balanced vs) (a : Nat) :
    s.owned.count a + (vs.flatMap Value.owned).count a = s.due a := by
  rw [← h a, owners_eq, List.count_append]

theorem of_count (h : ∀ a, s.owned.count a + (vs.flatMap Value.owned).count a = s.due a) :
    s.Balanced vs := by
  intro a
  rw [owners_eq, List.count_append, h a]

/-- The balance depends on what the held values own. -/
theorem congr (h : s.Balanced vs)
    (e : ∀ a, (ws.flatMap Value.owned).count a = (vs.flatMap Value.owned).count a) :
    s.Balanced ws :=
  of_count fun a => by rw [e a, h.count_eq a]

theorem congr_iff
    (e : ∀ a, (ws.flatMap Value.owned).count a = (vs.flatMap Value.owned).count a) :
    s.Balanced vs ↔ s.Balanced ws :=
  ⟨fun h => h.congr e, fun h => h.congr fun a => (e a).symm⟩

/-- A write hands out the value that it overwrites. -/
theorem exchange (h : s.Balanced (v :: vs)) (hr : s.read r = .ok old) (hw : s.write r v = .ok s') :
    s'.Balanced (old :: vs) := by
  obtain ⟨c, hc, hs⟩ := read_ok.1 hr
  obtain ⟨c', w, hc', hp, rfl⟩ := write_ok.1 hw
  rw [hc] at hc'
  cases hc'
  refine of_count fun a => ?_
  have h₁ := h.count_eq a
  have h₂ := Value.count_owned_replaceAt? a hs hp
  have hi : s.cells.toList[r.address]? = some (some c) := by
    rw [Array.getElem?_toList]
    exact cell?_eq_some.1 hc
  have h₃ := count_flatMap_set ownedIn a hi (some ⟨c.lifetime, w⟩)
  -- the cell keeps its lifetime, so as many owners are due as before
  have hd : (s.put r.address ⟨c.lifetime, w⟩).due a = s.due a := by
    simp only [due, cell?_put hc]
    split
    · rename_i e
      rw [e, hc]
      rfl
    · rfl
  rw [hd, ← h₁]
  simp only [owned, put, Array.toList_setIfInBounds, ownedIn, List.flatMap_cons,
    List.count_append] at h₃ ⊢
  omega

/-- A new cell for a variable takes over what its value owns. -/
theorem allocate (h : s.Balanced (v :: vs)) (hl : l.isRoot = false) :
    (s.allocate l v).1.Balanced vs := by
  refine of_count fun a => ?_
  have h₁ := h.count_eq a
  have hd : (s.allocate l v).1.due a = s.due a := by
    simp only [due, cell?_allocate]
    split
    · rename_i e
      rw [e, cell?_size]
      simp [ownersDue, hl]
    · rfl
  rw [hd, ← h₁]
  simp only [owned, Store.allocate, Array.toList_push, List.flatMap_append, List.flatMap_cons,
    List.flatMap_nil, List.append_nil, ownedIn, List.count_append] at h₁ ⊢
  omega

/-- A new cell for a box takes over what its value owns, and the box owns it. -/
theorem box (h : s.Balanced (v :: vs)) (hl : l.isRoot = true) :
    (s.allocate l v).1.Balanced (.ref (.owned s.cells.size) :: vs) := by
  refine of_count fun a => ?_
  have h₁ := h.count_eq a
  have hd : (s.allocate l v).1.due a = s.due a + [s.cells.size].count a := by
    simp only [due, cell?_allocate]
    split
    · rename_i e
      rw [e, cell?_size]
      simp [ownersDue, hl]
    · rename_i e
      rw [List.count_singleton, if_neg (by simpa using Ne.symm e), Nat.add_zero]
  rw [hd, ← h₁]
  simp only [owned, Store.allocate, Array.toList_push, List.flatMap_append, List.flatMap_cons,
    List.flatMap_nil, List.append_nil, ownedIn, List.count_append, Value.owned_box] at h₁ ⊢
  omega

/-- The cells of a block give back what they own. -/
theorem freeCellsOf (h : s.Balanced vs) (hl : l.isRoot = false) :
    (s.freeCellsOf l).Balanced ((s.cellsOf l).map (·.value) ++ vs) := by
  refine of_count fun a => ?_
  have h₁ := h.count_eq a
  -- no owner was due for a cell of a block
  have hd : (s.freeCellsOf l).due a = s.due a := by
    simp only [due, cell?_freeCellsOf]
    cases s.cell? a with
    | none => rfl
    | some c =>
      by_cases e : c.lifetime = l
      · simp [Option.filter, e, ownersDue, hl]
      · simp [Option.filter, e]
  have hc : s.owned.count a = (s.freeCellsOf l).owned.count a +
      (((s.cellsOf l).map (·.value)).flatMap Value.owned).count a := by
    simp only [owned, Store.freeCellsOf, cellsOf, live, Array.toList_map]
    induction s.cells.toList with
    | nil => rfl
    | cons c cs ih =>
      cases c with
      | none => simpa [ownedIn] using ih
      | some c =>
        by_cases e : c.lifetime = l
        · simp [Option.filter, ownedIn, e, ih]
          omega
        · simp [Option.filter, ownedIn, e, ih]
          omega
  rw [hd, ← h₁, hc, List.flatMap_append, List.count_append]
  omega

/-! ### Freeing -/

theorem liveCount_free (hc : s.cell? a = some c) : (s.free a).liveCount + 1 = s.liveCount := by
  have hi : s.cells.toList[a]? = some (some c) := by
    rw [Array.getElem?_toList]
    exact cell?_eq_some.1 hc
  have live_set : ∀ {cs : List (Option Cell)} {a : Nat}, cs[a]? = some (some c) →
      ((cs.set a none).filterMap id).length + 1 = (cs.filterMap id).length := by
    intro cs
    induction cs with
    | nil => intro a h; simp at h
    | cons d cs ih =>
      intro a h
      cases a with
      | zero =>
        simp only [List.getElem?_cons_zero, Option.some.injEq] at h
        subst h
        simp
      | succ a =>
        have := ih (by simpa using h)
        cases d with
        | none => simpa using this
        | some d => simpa using this
  simpa only [liveCount, live, free, Array.toList_setIfInBounds] using live_set hi

/-- Work that is in balance with the heap is done to its end. -/
theorem release {n : Nat} {work : List Nat} (hn : s.liveCount ≤ n)
    (h : ∀ a, s.owned.count a + work.count a + (vs.flatMap Value.owned).count a = s.due a) :
    ∃ x, s.release n work = .ok x ∧ x.1.Balanced vs := by
  induction n generalizing s work with
  | zero =>
    cases work with
    | nil => exact ⟨(s, 0), rfl, of_count fun a => by simpa using h a⟩
    | cons a work =>
      -- no cell is live, so no owner is due anywhere
      have ha := h a
      have hd : s.due a ≠ 0 := by
        rw [← ha, List.count_cons_self]
        omega
      cases hc : s.cell? a with
      | none => simp [due, hc] at hd
      | some c =>
        have := liveCount_free hc
        omega
  | succ n ih =>
    cases work with
    | nil => exact ⟨(s, 0), by simp [Store.release], of_count fun a => by simpa using h a⟩
    | cons a work =>
      -- the address is due an owner, so it is a live box, and this owner is its only one
      have ha := h a
      rw [List.count_cons_self] at ha
      cases hc : s.cell? a with
      | none =>
        simp only [due, hc, Option.elim_none] at ha
        omega
      | some c =>
        have hd : s.due a ≤ 1 := by
          rw [due, hc, Option.elim_some, ownersDue]
          split <;> omega
        have hi : s.cells.toList[a]? = some (some c) := by
          rw [Array.getElem?_toList]
          exact cell?_eq_some.1 hc
        have hs := liveCount_free hc
        have hb : ∀ b, (s.free a).owned.count b + (c.value.owned.reverse ++ work).count b +
            (vs.flatMap Value.owned).count b = (s.free a).due b := by
          intro b
          have h₁ := h b
          have h₂ := count_flatMap_set ownedIn b hi none
          have h₃ : (s.free a).due b = if b = a then 0 else s.due b := by
            simp only [due, cell?_free]
            split <;> rfl
          rw [h₃]
          simp only [owned, free, Array.toList_setIfInBounds, ownedIn, List.count_nil,
            List.count_append, List.count_reverse] at h₁ h₂ ⊢
          split
          · rename_i e
            subst e
            rw [List.count_cons_self] at h₁
            omega
          · rename_i e
            rw [List.count_cons_of_ne (Ne.symm e)] at h₁
            omega
        obtain ⟨x, hx, hb⟩ := ih (by omega) hb
        refine ⟨(x.1, x.2 + 1), ?_, hb⟩
        simp only [Store.release, cell_ok.2 hc, hx, Traced.ok_bind]
        rfl

/-- **What is held can be freed**, and the rest is in balance then. -/
theorem finalize (h : s.Balanced (vs ++ ws)) :
    ∃ x, s.finalize vs = .ok x ∧ x.1.Balanced ws := by
  refine release (Nat.le_refl _) fun a => ?_
  have := h.count_eq a
  rw [List.flatMap_append, List.count_append] at this
  rw [List.count_reverse]
  omega

end Balanced

end Store

end Ownership
