import Mathlib.Data.Set.Card
import Ownership.Proofs.Changes
import Ownership.Proofs.Soundness.Heap

/-!
# What the checks of the heap decide

An owner is a reference somewhere in a value, and the value is held by a live cell or is a
temporary. So the owners of an address are the places where they stand (`Store.ownersAt`), and there
are as many of them as the check has counted, whatever way it goes through the values.

* `Store.encard_ownersAt`: **the owners of an address are counted.**
* `Store.checkHeap_decides`: **both checks pass just on the heaps that they are meant to pass on.**
-/

namespace Ownership

namespace Value

variable {v : Value} {r : Reference} {a : Nat} {path : List Nat}

/-- At `path` in the value there is an owner of the cell at `a`. -/
def OwnsAt (v : Value) (a : Nat) (path : List Nat) : Prop :=
  ∃ r, v.select? path = some (.ref r) ∧ r.owner = true ∧ r.address = a

theorem mem_references_iff : r ∈ v.references ↔ ∃ path, v.select? path = some (.ref r) := by
  constructor
  · intro h
    induction v with
    | ref q =>
      obtain rfl : r = q := by simpa [references, pushReferences] using h
      exact ⟨[], rfl⟩
    | compound vs ih =>
      rw [references_compound, List.mem_flatMap] at h
      obtain ⟨v, hv, h⟩ := h
      obtain ⟨i, hi⟩ := List.mem_iff_getElem?.1 hv
      obtain ⟨path, hpath⟩ := ih v hv h
      exact ⟨i :: path, by simp [select?, hi, hpath]⟩
    | _ => cases h
  · rintro ⟨path, h⟩
    exact references_select? h List.mem_cons_self

/-- The places in the elements of a list: an index, and one of the places in the element there. -/
def placesIn {α : Type} (S : α → Set (List Nat)) (l : List α) : Set (Nat × List Nat) :=
  {e | ∃ x, l[e.1]? = some x ∧ e.2 ∈ S x}

/-- There are as many places as `f` counts in all elements, if that is so for each element. -/
theorem encard_placesIn {α : Type} {S : α → Set (List Nat)} {f : α → List Nat} {l : List α}
    (each : ∀ x ∈ l, (S x).encard = (f x).count a) :
    (placesIn S l).encard = (l.flatMap f).count a := by
  induction l with
  | nil => simp [placesIn]
  | cons x l ih =>
    have hsplit : placesIn S (x :: l) =
        Prod.mk 0 '' S x ∪ Prod.map Nat.succ id '' placesIn S l := by
      ext ⟨i, p⟩
      cases i <;> simp [placesIn]
    have hapart : Disjoint (Prod.mk 0 '' S x) (Prod.map Nat.succ id '' placesIn S l) := by
      rw [Set.disjoint_left]
      rintro _ ⟨p, -, rfl⟩ ⟨e, -, he⟩
      cases congrArg Prod.fst he
    rw [hsplit, Set.encard_union_eq hapart, (Prod.mk_right_injective 0).encard_image,
      (Nat.succ_injective.prodMap Function.injective_id).encard_image,
      each x List.mem_cons_self, ih fun y hy => each y (List.mem_cons_of_mem x hy),
      List.flatMap_cons, List.count_append, Nat.cast_add]

theorem encard_ownsAt_of_references (h : v.references = []) :
    {path | v.OwnsAt a path}.encard = v.owned.count a := by
  have hnone : ∀ path, ¬ v.OwnsAt a path := by
    rintro path ⟨r, hr, -⟩
    have hmem := mem_references_iff.2 ⟨path, hr⟩
    rw [h] at hmem
    cases hmem
  simp [hnone, owned, h]

/-- **A value owns an address once for each owner in it.** -/
theorem encard_ownsAt (v : Value) (a : Nat) :
    {path | v.OwnsAt a path}.encard = v.owned.count a := by
  induction v with
  | unit => exact encard_ownsAt_of_references rfl
  | int n => exact encard_ownsAt_of_references rfl
  | undefined => exact encard_ownsAt_of_references rfl
  | ref r =>
    have hset : {path | (ref r).OwnsAt a path} =
        if r.owner = true ∧ r.address = a then {[]} else ∅ := by
      ext path
      by_cases h : r.owner = true ∧ r.address = a <;> cases path <;> simp [OwnsAt, select?, h]
    rw [hset]
    by_cases ho : r.owner = true
    · by_cases ha : r.address = a <;> simp [owned, references, pushReferences, ho, ha]
    · simp [owned, references, pushReferences, ho]
  | compound vs ih =>
    have hset : {path | (compound vs).OwnsAt a path} = (fun e : Nat × List Nat => e.1 :: e.2) ''
        placesIn (fun v => {path | v.OwnsAt a path}) vs := by
      ext path
      cases path with
      | nil => simp [OwnsAt, select?]
      | cons i path =>
        simp only [OwnsAt, select?, placesIn, Set.mem_ofPred_eq, Set.mem_image, List.cons.injEq,
          Option.bind_eq_some_iff, Prod.exists]
        constructor
        · rintro ⟨r, ⟨v, hv, hr⟩, ho⟩
          exact ⟨i, path, ⟨v, hv, r, hr, ho⟩, rfl, rfl⟩
        · rintro ⟨_, _, ⟨v, hv, r, hr, ho⟩, rfl, rfl⟩
          exact ⟨r, ⟨v, hv, hr⟩, ho⟩
    have hinj : Function.Injective fun e : Nat × List Nat => e.1 :: e.2 := by
      rintro ⟨i, p⟩ ⟨j, q⟩ h
      simpa using h
    rw [hset, hinj.encard_image, owned_compound, encard_placesIn ih]

end Value

/-- What holds a value: a live cell, or the reduction that has not stored the value yet. -/
inductive Holder where
  | cell (address : Nat)
  | temporary (index : Nat)

namespace Store

variable {s : Store} {vs ws : List Value} {r : Reference} {a : Nat} {c : Cell}

/-- The value that is held there, if there is one. -/
def valueIn (s : Store) (vs : List Value) : Holder → Option Value
  | .cell a => (s.cell? a).map (·.value)
  | .temporary i => vs[i]?

/-- The reference stands in a live cell or in a temporary, at any depth. -/
def Mentions (s : Store) (vs : List Value) (r : Reference) : Prop :=
  ∃ h v path, s.valueIn vs h = some v ∧ v.select? path = some (.ref r)

/-- Where the owners of an address stand: in which live cells and temporaries, and where in
these. -/
def ownersAt (s : Store) (vs : List Value) (a : Nat) : Set (Holder × List Nat) :=
  {o | ∃ v, s.valueIn vs o.1 = some v ∧ v.OwnsAt a o.2}

theorem mem_held_iff : r ∈ s.held vs ↔ s.Mentions vs r := by
  simp only [held, List.mem_flatMap, List.mem_append, List.mem_map, mem_live,
    Value.mem_references_iff]
  constructor
  · rintro ⟨v, ⟨c, ⟨a, hc⟩, rfl⟩ | hv, path, hr⟩
    · exact ⟨.cell a, c.value, path, by simp [valueIn, hc], hr⟩
    · obtain ⟨i, hi⟩ := List.mem_iff_getElem?.1 hv
      exact ⟨.temporary i, v, path, hi, hr⟩
  · rintro ⟨a | i, v, path, hv, hr⟩
    · obtain ⟨c, hc, rfl⟩ := Option.map_eq_some_iff.1 hv
      exact ⟨c.value, .inl ⟨c, ⟨a, hc⟩, rfl⟩, path, hr⟩
    · exact ⟨v, .inr (List.mem_of_getElem? hv), path, hr⟩

/-- Where in a cell, if there is one, the owners of an address stand. -/
def ownersIn (a : Nat) : Option Cell → Set (List Nat)
  | some c => {path | c.value.OwnsAt a path}
  | none => ∅

theorem ownersAt_eq (s : Store) (vs : List Value) (a : Nat) : s.ownersAt vs a =
    Prod.map Holder.cell id '' Value.placesIn (ownersIn a) s.cells.toList ∪
      Prod.map Holder.temporary id '' Value.placesIn (fun v => {path | v.OwnsAt a path}) vs := by
  ext ⟨h, path⟩
  cases h with
  | cell b =>
    have hcell : (∃ v, (s.cell? b).map (·.value) = some v ∧ v.OwnsAt a path) ↔
        ∃ o, s.cells[b]? = some o ∧ path ∈ ownersIn a o := by
      rw [cell?]
      rcases s.cells[b]? with _ | _ | c <;> simp [ownersIn]
    simpa [ownersAt, valueIn, Value.placesIn] using hcell
  | temporary i => simp [ownersAt, valueIn, Value.placesIn]

/-- **The owners of an address are counted.** -/
theorem encard_ownersAt (s : Store) (vs : List Value) (a : Nat) :
    (s.ownersAt vs a).encard = (s.owners vs).count a := by
  have hcell : ∀ o ∈ s.cells.toList, (ownersIn a o).encard = (ownedIn o).count a := by
    rintro (_ | c) -
    · simp [ownersIn, ownedIn]
    · exact c.value.encard_ownsAt a
  have hapart : Disjoint
      (Prod.map Holder.cell id '' Value.placesIn (ownersIn a) s.cells.toList)
      (Prod.map Holder.temporary id '' Value.placesIn (fun v => {path | v.OwnsAt a path}) vs) := by
    rw [Set.disjoint_left]
    rintro _ ⟨e, -, rfl⟩ ⟨e', -, he⟩
    cases congrArg Prod.fst he
  have hinj : Function.Injective Holder.cell := fun _ _ => Holder.cell.inj
  have hinj' : Function.Injective Holder.temporary := fun _ _ => Holder.temporary.inj
  rw [ownersAt_eq, Set.encard_union_eq hapart, (hinj.prodMap Function.injective_id).encard_image,
    (hinj'.prodMap Function.injective_id).encard_image, Value.encard_placesIn hcell,
    Value.encard_placesIn fun v _ => v.encard_ownsAt a, owners_eq, owned, List.count_append,
    Nat.cast_add]

/-! ### The checks -/

theorem sound_iff : s.Sound vs ↔ (∀ r, s.Mentions vs r → ∃ c, s.cell? r.address = some c) ∧
    ∀ a c, s.cell? a = some c →
      (s.ownersAt vs a).encard = if c.lifetime.isRoot then 1 else 0 := by
  simp only [encard_ownersAt, ← mem_held_iff]
  constructor
  · refine fun h => ⟨h.live, fun a c hc => ?_⟩
    rw [h.balanced a, due, hc, Option.elim_some, ownersDue]
    split <;> rfl
  · rintro ⟨live, hcount⟩
    refine ⟨fun a => ?_, live⟩
    rw [due]
    cases hc : s.cell? a with
    | none =>
      -- a hole has no owner, since no reference dangles
      refine List.count_eq_zero.2 fun ha => ?_
      obtain ⟨r, hr, -, rfl⟩ := mem_owners.1 ha
      obtain ⟨c, hc'⟩ := live r hr
      cases hc.symm.trans hc'
    | some c =>
      have ha := hcount a c hc
      rw [Option.elim_some, ownersDue]
      split at ha
      · rw [if_pos ‹_›]
        exact_mod_cast ha
      · rw [if_neg ‹_›]
        exact_mod_cast ha

theorem checkHeap_eq_ok : s.checkHeap vs = .ok () ↔ s.Sound vs :=
  ⟨.of_checkHeap, Sound.checkHeap_ok⟩

/-- What passes the check passes the weaker one, even if not all temporaries are in sight. -/
theorem checkAfterDrop_of_checkHeap [HashOrder] (h : s.checkHeap vs = .ok ()) (hs : ws.Subperm vs) :
    s.checkAfterDrop ws = .ok () := by
  obtain ⟨ws', hperm, hsub⟩ := hs
  obtain ⟨us, hp⟩ := hsub.exists_perm_append
  have hsound : s.Sound (ws ++ us) :=
    (checkHeap_eq_ok.1 h).congr ((hp.trans (hperm.append_right us)).symm.flatMap_right _)
  exact hsound.checkAfterDrop_ok

/-- **The checks decide what they are meant to.** A heap passes the first one just if every
reference in a live cell or a temporary, at any depth, has a live target, every live cell of a box
has one owner, and every other live cell has none. It passes the check after a drop just if every
such reference has a live target and no cell has two owners, so it does if it passes the first one,
also with some of the temporaries only. -/
theorem checkHeap_decides [HashOrder] (s : Store) (vs : List Value) :
    (s.checkHeap vs = .ok () ↔ (∀ r, s.Mentions vs r → ∃ c, s.cell? r.address = some c) ∧
      ∀ a c, s.cell? a = some c →
        (s.ownersAt vs a).encard = if c.lifetime.isRoot then 1 else 0) ∧
    (s.checkAfterDrop vs = .ok () ↔ (∀ r, s.Mentions vs r → ∃ c, s.cell? r.address = some c) ∧
      ∀ a c, s.cell? a = some c → (s.ownersAt vs a).encard ≤ 1) ∧
    (s.checkHeap vs = .ok () →
      ∀ ws : List Value, ws.Subperm vs → s.checkAfterDrop ws = .ok ()) := by
  refine ⟨checkHeap_eq_ok.trans sound_iff, ?_, fun h ws => checkAfterDrop_of_checkHeap h⟩
  simp only [checkAfterDrop_eq_ok, mem_held_iff]
  refine and_congr_right fun live => ⟨fun h a c _ => ?_, fun h a => ?_⟩
  · rw [encard_ownersAt]
    exact_mod_cast h a
  · -- an address that has an owner is that of a live cell
    by_cases hmem : a ∈ s.owners vs
    · obtain ⟨r, hr, -, rfl⟩ := mem_owners.1 hmem
      obtain ⟨c, hc⟩ := live r (mem_held_iff.1 hr)
      have hle := h _ c hc
      rw [encard_ownersAt] at hle
      exact_mod_cast hle
    · rw [List.count_eq_zero.2 hmem]
      exact Nat.zero_le 1

/-- A variable that owns a box inside of a compound, a hole, and a box that nothing owns but a
temporary. -/
def halfBuilt : Store :=
  ⟨#[some ⟨.inside 1 (.root 0), .compound [.int 1, .ref (.owned 2)]⟩, none,
    some ⟨.root 0, .ref (.borrowed 0)⟩, some ⟨.root 0, .int 7⟩]⟩

theorem checkHeap_decides_halfBuilt :
    halfBuilt.checkHeap [.ref (.owned 3)] = .ok () ∧
    (halfBuilt.ownersAt [.ref (.owned 3)] 3).encard = 1 ∧
    halfBuilt.checkAfterDrop [] = .ok () ∧
    halfBuilt.checkHeap [] ≠ .ok () ∧ (halfBuilt.ownersAt [] 3).encard = 0 := by
  have hfull : halfBuilt.checkHeap [.ref (.owned 3)] = .ok () := by decide +kernel
  obtain ⟨hdecides, -, hdrop⟩ := checkHeap_decides halfBuilt [.ref (.owned 3)]
  have hcell : halfBuilt.cell? 3 = some ⟨.root 0, .int 7⟩ := by decide
  exact ⟨hfull, (hdecides.1 hfull).2 3 _ hcell, hdrop hfull [] List.nil_subperm,
    by decide +kernel, by rw [encard_ownersAt]; decide +kernel⟩

end Store

end Ownership
