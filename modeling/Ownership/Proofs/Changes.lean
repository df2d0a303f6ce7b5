import Ownership.Proofs.Cells
import Ownership.Proofs.Rules

/-!
# What the changes of a store keep

However large a reduction is, it changes the store in few ways: a live cell gets another content,
a cell is allocated for a box or for a variable, the cell that an owner points to is freed, and the
cells of a block are freed when the block is left. An invariant that survives each of these, stated
for the references that are held outside of the store, is a `Law`. What follows from that for drops
and for the rules of the machine is worked out here once, for every law.

* `Outcome`: what is said of a computation that may fail.
* `Law.release`, `Law.dropValue`, `Law.dropLifetime`: drops.
* `Law.access`, `Law.assign`, `Law.leaveBlock` and so on: the rules.
* `Store.AllReferences`: a condition on every reference, part of the laws to come.
-/

namespace Ownership

/-! ### Outcomes -/

/-- What the computation gives satisfies `P`, and the fault that it fails with satisfies `E`. -/
def Outcome {α : Type} (E : Fault → Prop) (P : α → Prop) : Except Fault α → Prop
  | .ok a => P a
  | .error e => E e

namespace Outcome

variable {α β : Type} {E : Fault → Prop} {P P' : α → Prop} {Q : β → Prop} {x : Except Fault α}

theorem mono (h : Outcome E P x) (hP : ∀ a, P a → P' a) : Outcome E P' x := by
  cases x with
  | error e => exact h
  | ok a => exact hP a h

theorem bind {f : α → Except Fault β} (h : Outcome E P x) (hf : ∀ a, P a → Outcome E Q (f a)) :
    Outcome E Q (x >>= f) := by
  cases x with
  | error e => exact h
  | ok a => exact hf a h

theorem map {f : α → β} (h : Outcome E P x) (hf : ∀ a, P a → Q (f a)) :
    Outcome E Q (x.map f) := by
  cases x with
  | error e => exact h
  | ok a => exact hf a h

theorem and {Q : α → Prop} (h : Outcome E P x) (hq : ∀ a, x = .ok a → Q a) :
    Outcome E (fun a => P a ∧ Q a) x := by
  cases x with
  | error e => exact h
  | ok a => exact ⟨h, hq a rfl⟩

theorem of_ok {a : α} (h : Outcome E P x) (hx : x = .ok a) : P a := by
  rw [hx] at h
  exact h

theorem of_error {e : Fault} (h : Outcome E P x) (hx : x = .error e) : E e := by
  rw [hx] at h
  exact h

theorem foldlM {f : α → β → Except Fault α} (hf : ∀ a b, P a → Outcome E P (f a b)) {a : α}
    (ha : P a) (bs : List β) : Outcome E P (bs.foldlM f a) := by
  induction bs generalizing a with
  | nil => exact ha
  | cons b bs ih => exact (hf a b ha).bind fun a ha => ih ha

theorem forM {f : α → Except Fault Unit} {as : List α}
    (hf : ∀ a ∈ as, Outcome E (fun _ => True) (f a)) : Outcome E (fun _ => True) (as.forM f) := by
  induction as with
  | nil => trivial
  | cons a as ih =>
    exact (hf a List.mem_cons_self).bind fun _ _ => ih fun b hb => hf b (List.mem_cons_of_mem _ hb)

end Outcome

/-! ### References of parts -/

namespace Value

variable {v w new : Value} {path : List Nat}

theorem mem_owned {a : Nat} : a ∈ v.owned ↔ ∃ r ∈ v.references, r.owner = true ∧ r.address = a := by
  simp only [owned, List.mem_map, List.mem_filter, and_assoc]

theorem references_select? (h : v.select? path = some w) : w.references ⊆ v.references := by
  induction path generalizing v with
  | nil =>
    simp only [select?, Option.some.injEq] at h
    rw [h]
    exact List.Subset.refl _
  | cons i path ih =>
    cases v with
    | compound vs =>
      simp only [select?, Option.bind_eq_some_iff] at h
      obtain ⟨u, hu, h⟩ := h
      intro r hr
      rw [references_compound, List.mem_flatMap]
      exact ⟨u, List.mem_of_getElem? hu, ih h hr⟩
    | _ => simp [select?] at h

theorem references_replaceAt? (h : v.replaceAt? path new = some w) :
    w.references ⊆ v.references ++ new.references := by
  induction path generalizing v w with
  | nil =>
    simp only [replaceAt?, Option.some.injEq] at h
    rw [← h]
    exact List.subset_append_right _ _
  | cons i path ih =>
    cases v with
    | compound vs =>
      simp only [replaceAt?, Option.bind_eq_some_iff, Option.map_eq_some_iff] at h
      obtain ⟨u, hu, u', h, rfl⟩ := h
      intro r hr
      rw [references_compound, List.mem_flatMap] at hr
      obtain ⟨x, hx, hr⟩ := hr
      rw [references_compound, List.mem_append, List.mem_flatMap]
      -- a component is an old one, or the one that has been replaced in
      rcases List.mem_or_eq_of_mem_set hx with hx | rfl
      · exact .inl ⟨x, hx, hr⟩
      · exact (List.mem_append.1 (ih h hr)).imp_left fun hr => ⟨u, List.mem_of_getElem? hu, hr⟩
    | _ => simp [replaceAt?] at h

end Value

/-! ### Laws -/

/-- The fault is not about a missing cell, and not about the number of steps. -/
def Fault.Misfit : Fault → Prop
  | invalidAddress _ | danglingReference _ | unfinished => False
  | _ => True

/-- What is said of a store and of the references that are held outside of it, while blocks of some
lifetimes are open, the innermost first. -/
abbrev Invariant := List Lifetime → Store → List Reference → Prop

/-- **An invariant that no change of a store breaks.** Blocks carry lifetimes in `L`, and the faults
that may come up are in `E`. -/
structure Law (E : Fault → Prop) (L : Lifetime → Prop) (I : Invariant) : Prop where
  fault {e : Fault} : e.Misfit → E e
  missing {ks s rs} {r : Reference} : I ks s rs → r ∈ rs → E (s.missing r.address)
  mono {ks s rs rs'} : I ks s rs → rs' ⊆ rs → I ks s rs'
  /-- A borrow of what is held may be held. -/
  borrow {ks s rs} {r : Reference} : I ks s rs → r ∈ rs →
    ∀ path, I ks s (⟨r.address, path, false⟩ :: rs)
  /-- What a live cell holds may be held. -/
  read {ks s rs a} {c : Cell} : I ks s rs → s.cell? a = some c → I ks s (c.value.references ++ rs)
  put {ks s rs a} {c : Cell} {v : Value} : I ks s rs → s.cell? a = some c → v.references ⊆ rs →
    I ks (s.put a ⟨c.lifetime, v⟩) rs
  free {ks s rs} {r : Reference} : I ks s rs → r ∈ rs → r.owner = true → I ks (s.free r.address) rs
  box {ks s rs} {l : Lifetime} {v : Value} : I ks s rs → v.references ⊆ rs → l.isRoot = true →
    I ks (s.allocate l v).1 (.owned s.cells.size :: rs)
  declare {k ks s rs} {v : Value} : I (k :: ks) s rs → v.references ⊆ rs →
    I (k :: ks) (s.allocate k v).1 (.borrowed s.cells.size :: rs)
  enter {k ks s rs} : L k → I ks s rs → I (k :: ks) s rs
  leave {k ks s rs} : L k → I (k :: ks) s rs → I ks (s.freeCellsOf k) rs

namespace Law

variable {E : Fault → Prop} {L : Lifetime → Prop} {I : Invariant}
variable {k l : Lifetime} {ks : List Lifetime} {rs : List Reference} {r : Reference}
variable {v w : Value} {vs : List Value}

section

variable {s : Store}

/-! ### Cells and locations -/

theorem cell (H : Law E L I) (h : I ks s rs) (hr : r ∈ rs) :
    Outcome E (fun c => s.cell? r.address = some c) (s.cell r.address) := by
  cases hc : s.cell r.address with
  | ok c => exact Store.cell_ok.1 hc
  | error e =>
    rw [(Store.cell_error.1 hc).2]
    exact H.missing h hr

/-- What is stored at a location may be held. Whether the location is an owner is of no account. -/
theorem readAt (H : Law E L I) (h : I ks s rs) (hr : r.toBorrow ∈ rs) :
    Outcome E (fun v => I ks s (v.references ++ rs)) (s.read r) := by
  refine (H.cell h hr).bind fun c hc => ?_
  cases hv : c.value.select? r.path with
  | none => exact H.fault trivial
  | some v =>
    have hs := Value.references_select? hv
    exact H.mono (H.read h hc) (by grind)

theorem writeAt (H : Law E L I) (h : I ks s rs) (hr : r.toBorrow ∈ rs) (hv : v.references ⊆ rs) :
    Outcome E (fun s' => I ks s' rs) (s.write r v) := by
  refine (H.cell h hr).bind fun c hc => ?_
  cases hw : c.value.replaceAt? r.path v with
  | none => exact H.fault trivial
  | some w =>
    have hs := Value.references_replaceAt? hw
    exact H.mono (H.put (H.read h hc) hc (by grind)) (List.subset_append_right _ _)

theorem follow (H : Law E L I) (h : I ks s rs) (hr : r.toBorrow ∈ rs) (a : Selector) :
    Outcome E (fun r' => I ks s (r'.toBorrow :: rs)) (State.follow s r a) := by
  cases a with
  | index i => exact H.borrow h hr (r.path ++ [i])
  | deref =>
    refine (H.readAt h hr).bind fun v hv => ?_
    cases v with
    | ref target =>
      have ht := H.borrow hv (List.mem_append_left _ List.mem_cons_self) target.path
      exact H.mono ht (List.cons_subset_cons _ (List.subset_append_right _ _))
    | undefined => exact H.fault trivial
    | _ => exact H.fault trivial

/-! ### Drops -/

/-- Work on addresses that are owned by what is held. -/
theorem release (H : Law E L I) {n : Nat} {work : List Nat} (h : I ks s rs)
    (hw : ∀ a ∈ work, ∃ r ∈ rs, r.owner = true ∧ r.address = a) :
    Outcome E (fun x => I ks x.1 rs) (s.release n work) := by
  induction n generalizing s work rs with
  | zero =>
    cases work with
    | nil => exact h
    | cons a work =>
      obtain ⟨r, hr, -, rfl⟩ := hw a List.mem_cons_self
      exact H.missing h hr
  | succ n ih =>
    cases work with
    | nil => exact h
    | cons a work =>
      obtain ⟨r, hr, ho, rfl⟩ := hw a List.mem_cons_self
      refine (H.cell h hr).bind fun c hc => ?_
      -- what the content owns joins the work, so the content is held from here on
      have hf := H.free (H.read h hc) (List.mem_append_right _ hr) ho
      refine ((ih hf ?_).mono fun x hx => H.mono hx (List.subset_append_right _ _)).bind
        fun x hx => hx
      intro b hb
      rcases List.mem_append.1 hb with hb | hb
      · obtain ⟨q, hq, ho, rfl⟩ := Value.mem_owned.1 (List.mem_reverse.1 hb)
        exact ⟨q, List.mem_append_left _ hq, ho, rfl⟩
      · obtain ⟨q, hq, ho, rfl⟩ := hw b (List.mem_cons_of_mem _ hb)
        exact ⟨q, List.mem_append_right _ hq, ho, rfl⟩

theorem finalize (H : Law E L I) (h : I ks s rs) (hv : vs.flatMap Value.references ⊆ rs) :
    Outcome E (fun x => I ks x.1 rs) (s.finalize vs) := by
  refine H.release h fun a ha => ?_
  obtain ⟨v, hvs, ha⟩ := List.mem_flatMap.1 (List.mem_reverse.1 ha)
  obtain ⟨r, hr, ho, rfl⟩ := Value.mem_owned.1 ha
  exact ⟨r, hv (List.mem_flatMap.2 ⟨v, hvs, hr⟩), ho, rfl⟩

/-- What live cells hold may be held all at once. -/
theorem readAll (H : Law E L I) (h : I ks s rs) {cs : List Cell} (hc : cs ⊆ s.live) :
    I ks s ((cs.map (·.value)).flatMap Value.references ++ rs) := by
  induction cs with
  | nil => exact h
  | cons c cs ih =>
    obtain ⟨hc, hcs⟩ := List.cons_subset.1 hc
    obtain ⟨a, ha⟩ := Store.mem_live.1 hc
    rw [List.map_cons, List.flatMap_cons, List.append_assoc]
    exact H.read (ih hcs) ha

theorem checkReferences (H : Law E L I) (h : I ks s rs) (hv : vs.flatMap Value.references ⊆ rs) :
    Outcome E (fun _ => True) (s.checkReferences vs) := by
  refine Outcome.forM fun r hr => ?_
  have hl := H.readAll h (List.Subset.refl s.live)
  rw [Store.held, List.flatMap_append] at hr
  exact (H.cell hl (by grind)).bind fun _ _ => trivial

theorem checkHeap (H : Law E L I) (h : I ks s rs) (hv : vs.flatMap Value.references ⊆ rs) :
    Outcome E (fun _ => True) (s.checkHeap vs) := by
  refine (H.checkReferences h hv).bind fun _ _ => ?_
  dsimp only
  split
  · exact H.fault trivial
  · trivial

variable [HashOrder]

theorem checkAfterDrop (H : Law E L I) (h : I ks s rs) (hv : vs.flatMap Value.references ⊆ rs) :
    Outcome E (fun _ => True) (s.checkAfterDrop vs) := by
  refine (H.checkReferences h hv).bind fun _ _ => ?_
  split
  · exact H.fault trivial
  · trivial

theorem dropValue (H : Law E L I) (h : I ks s rs) (hv : v.references ⊆ rs)
    (hvs : vs.flatMap Value.references ⊆ rs) :
    Outcome E (fun s' => I ks s' rs) (s.dropValue v vs).result := by
  rw [Store.dropValue_result]
  refine (H.finalize h (by simpa using hv)).bind fun x hx => ?_
  exact (H.checkAfterDrop hx hvs).map fun _ _ => hx

/-- The lifetime of a block that is left ends. -/
theorem dropLifetime (H : Law E L I) (hk : L k) (h : I (k :: ks) s rs)
    (hvs : vs.flatMap Value.references ⊆ rs) :
    Outcome E (fun s' => I ks s' rs) (s.dropLifetime k vs).result := by
  rw [Store.dropLifetime_result]
  -- the contents of its cells are held before the cells are freed
  have hc : s.cellsOf k ⊆ s.live := List.filter_sublist.subset
  have hl := H.leave hk (H.readAll h hc)
  refine (H.finalize hl (List.subset_append_left _ _)).bind fun x hx => ?_
  have hx := H.mono hx (List.subset_append_right _ _)
  exact (H.checkAfterDrop hx hvs).map fun _ _ => hx

end

end Law

/-! ### All references -/

namespace Store

/-- All references satisfy `P`, those in the live cells and those that are held. -/
structure AllReferences (P : Reference → Prop) (s : Store) (rs : List Reference) : Prop where
  cells : ∀ a c, s.cell? a = some c → ∀ r ∈ c.value.references, P r
  held : ∀ r ∈ rs, P r

namespace AllReferences

variable {P Q : Reference → Prop} {s s' : Store} {rs rs' : List Reference} {r : Reference}
variable {a : Nat} {c : Cell} {v : Value} {l : Lifetime}

theorem imp (h : s.AllReferences P rs) (hP : ∀ r, P r → Q r) : s.AllReferences Q rs where
  cells := fun a c hc r hr => hP r (h.cells a c hc r hr)
  held := fun r hr => hP r (h.held r hr)

theorem mono (h : s.AllReferences P rs) (hr : rs' ⊆ rs) : s.AllReferences P rs' where
  cells := h.cells
  held := fun r hm => h.held r (hr hm)

theorem cons (h : s.AllReferences P rs) (hr : P r) : s.AllReferences P (r :: rs) where
  cells := h.cells
  held := List.forall_mem_cons.2 ⟨hr, h.held⟩

theorem read (h : s.AllReferences P rs) (hc : s.cell? a = some c) :
    s.AllReferences P (c.value.references ++ rs) where
  cells := h.cells
  held := List.forall_mem_append.2 ⟨h.cells a c hc, h.held⟩

theorem of_freed (h : s.AllReferences P rs)
    (hc : ∀ a c, s'.cell? a = some c → s.cell? a = some c) : s'.AllReferences P rs where
  cells := fun a c ha => h.cells a c (hc a c ha)
  held := h.held

theorem free (h : s.AllReferences P rs) (a : Nat) : (s.free a).AllReferences P rs :=
  h.of_freed fun _ _ hd => (cell?_free_eq_some.1 hd).2

theorem freeCellsOf (h : s.AllReferences P rs) (l : Lifetime) :
    (s.freeCellsOf l).AllReferences P rs :=
  h.of_freed fun _ _ hd => (cell?_freeCellsOf_eq_some.1 hd).1

theorem put (h : s.AllReferences P rs) (hc : s.cell? a = some c) (hv : v.references ⊆ rs) :
    (s.put a ⟨l, v⟩).AllReferences P rs where
  cells := by
    intro b d hd r hr
    rw [cell?_put hc] at hd
    split at hd
    · cases hd
      exact h.held r (hv hr)
    · exact h.cells b d hd r hr
  held := h.held

theorem allocate (h : s.AllReferences P rs) (l : Lifetime) (hv : v.references ⊆ rs) :
    (s.allocate l v).1.AllReferences P rs where
  cells := by
    intro b d hd r hr
    rw [cell?_allocate] at hd
    split at hd
    · cases hd
      exact h.held r (hv hr)
    · exact h.cells b d hd r hr
  held := h.held

end AllReferences

end Store

/-! ### States -/

namespace State

/-- The locations of the variables, as borrows. -/
def bound (s : State) : List Reference := s.frame.values.map fun b => b.location.toBorrow

variable {s : State} {x : String} {b : Binding}

theorem mem_bound (h : s.frame.get? x = some b) : b.location.toBorrow ∈ s.bound :=
  List.mem_map.2 ⟨b, List.mem_map.2 ⟨(x, b), NameMap.mem_entries_iff.2 h, rfl⟩, rfl⟩

theorem exists_of_mem_bound {r : Reference} (h : r ∈ s.bound) :
    ∃ x b, s.frame.get? x = some b ∧ b.location.toBorrow = r := by
  obtain ⟨b, hb, rfl⟩ := List.mem_map.1 h
  obtain ⟨⟨x, b⟩, he, rfl⟩ := List.mem_map.1 hb
  exact ⟨x, b, NameMap.mem_entries_iff.1 he, rfl⟩

theorem bound_declare (s : State) (x : String) (l : Lifetime) (v : Value) :
    (s.declare x l v).bound ⊆ .borrowed s.store.cells.size :: s.bound := by
  intro r hr
  obtain ⟨y, b, hb, rfl⟩ := exists_of_mem_bound hr
  rw [declare, NameMap.get?_insert] at hb
  split at hb
  · cases hb
    exact List.mem_cons_self
  · exact List.mem_cons_of_mem _ (mem_bound hb)

theorem bound_popFrame (s : State) (st : Store) (l : Lifetime) :
    bound ⟨popFrame s.frame l, st⟩ ⊆ s.bound := by
  intro r hr
  obtain ⟨x, b, hb, rfl⟩ := exists_of_mem_bound hr
  rw [popFrame, NameMap.get?_filter, Option.filter_eq_some_iff] at hb
  exact mem_bound hb.1

end State

/-- The invariant, with the locations of the variables held besides `rs`. -/
def Held (I : Invariant) (ks : List Lifetime) (s : State) (rs : List Reference) : Prop :=
  I ks s.store (s.bound ++ rs)

namespace Law

variable {E : Fault → Prop} {L : Lifetime → Prop} {I : Invariant}
variable {k l : Lifetime} {ks : List Lifetime} {rs rs' : List Reference} {s : State} {p : Place}
variable {v w : Value} {vs : List Value}

theorem heldMono (H : Law E L I) (h : Held I ks s rs) (hr : rs' ⊆ rs) : Held I ks s rs' :=
  H.mono h (by grind)

theorem locate (H : Law E L I) (h : Held I ks s rs) (p : Place) :
    Outcome E (fun r => I ks s.store (r.toBorrow :: (s.bound ++ rs))) (s.locate p) := by
  rw [State.locate]
  cases hb : s.frame.get? p.name with
  | none => exact H.fault trivial
  | some b =>
    have hl : I ks s.store (b.location.toBorrow :: (s.bound ++ rs)) :=
      H.borrow h (List.mem_append_left _ (State.mem_bound hb)) b.location.path
    refine Outcome.foldlM (P := fun r : Reference => I ks s.store (r.toBorrow :: (s.bound ++ rs)))
      (a := b.location) (fun r a hr => ?_) hl p.path
    exact (H.follow hr List.mem_cons_self a).mono fun r' h' => H.mono h' (by grind)

theorem checkState (H : Law E L I) (h : Held I ks s rs) (hv : vs.flatMap Value.references ⊆ rs) :
    Outcome E (fun _ => True) (s.store.checkHeap vs) :=
  H.checkHeap h (by grind)

/-! ### Rules -/

theorem access (H : Law E L I) (h : Held I ks s rs) (kind : AccessKind) (p : Place) :
    Outcome E (fun x => Held I ks x.1 (x.2.references ++ rs)) (s.access kind p).result := by
  rw [State.access_result]
  refine (H.locate h p).bind fun r hr => (H.readAt hr List.mem_cons_self).bind fun v hv => ?_
  split
  · exact H.fault trivial
  · split
    · refine (H.writeAt hv (by grind) (List.nil_subset _)).map fun st h' => ?_
      exact H.mono h' (by grind [State.bound])
    · exact H.mono hv (by grind)

theorem borrowPlace (H : Law E L I) (h : Held I ks s rs) (p : Place) :
    Outcome E (fun v => Held I ks s (v.references ++ rs)) (s.borrow p).result := by
  simp only [State.borrow, Traced.result_bind, Traced.result_lift, Traced.result_note,
    Traced.ok_bind]
  refine (H.locate h p).bind fun r hr => ?_
  exact H.mono hr (by grind [Value.references, Value.pushReferences])

theorem boxed (H : Law E L I) (h : Held I ks s (v.references ++ rs)) (l : Lifetime) :
    Outcome E (fun x => Held I ks x.1 (x.2.references ++ rs)) (s.box l v).result := by
  have hb := H.box (l := l.global) h (v := v) (by grind) l.global_isRoot
  exact H.mono hb (by grind [State.bound, Value.references, Value.pushReferences])

theorem bind (H : Law E L I) (h : Held I (k :: ks) s (v.references ++ rs)) (x : String) :
    Outcome E (fun y => Held I (k :: ks) y.1 (y.2.references ++ rs)) (s.bind x k v).result := by
  have hd := H.declare h (v := v) (by grind)
  have hb := s.bound_declare x k v
  exact H.mono hd (by grind [Value.references, Value.pushReferences])

variable [HashOrder]

theorem assign (H : Law E L I) (h : Held I ks s (v.references ++ rs)) (p : Place) :
    Outcome E (fun x => Held I ks x.1 (x.2.references ++ rs)) (s.assign p v).result := by
  simp only [State.assign, Traced.result_bind, Traced.result_lift, Traced.result_note,
    Traced.ok_bind]
  refine (H.locate h p).bind fun r hr => (H.readAt hr List.mem_cons_self).bind fun old ho => ?_
  refine (H.writeAt ho (by grind) (by grind)).bind fun st hs => ?_
  refine (H.dropValue hs (by grind) (List.nil_subset _)).bind fun st' hs' => ?_
  exact H.mono hs' (by grind [State.bound, Value.references, Value.pushReferences])

theorem branch (H : Law E L I) (h : Held I ks s (v.references ++ (w.references ++ rs))) (t : Term) :
    Outcome E (fun s' => Held I ks s' rs) (s.branch v w t).result := by
  simp only [State.branch, Traced.result_bind, Traced.result_note, Traced.ok_bind]
  refine (H.dropValue h (by grind) (by grind)).bind fun st hs => ?_
  refine (H.dropValue hs (by grind) (List.nil_subset _)).bind fun st' hs' => ?_
  exact H.mono hs' (by grind [State.bound])

theorem discard (H : Law E L I) (h : Held I ks s (v.references ++ rs))
    (hv : vs.flatMap Value.references ⊆ rs) :
    Outcome E (fun s' => Held I ks s' rs) (s.discard v vs).result := by
  simp only [State.discard, Traced.result_bind]
  refine (H.dropValue h (by grind) (by grind)).bind fun st hs => ?_
  exact H.mono hs (by grind [State.bound])

/-- A block is left for a frame all of whose locations are held. -/
theorem leaveBlock (H : Law E L I) (hk : L k) {f : NameMap Binding}
    (hf : ∀ st, State.bound ⟨f, st⟩ ⊆ s.bound ++ rs) (h : Held I (k :: ks) s (v.references ++ rs)) :
    Outcome E (fun x => Held I ks x.1 (x.2.references ++ rs)) (s.leave f k v).result := by
  simp only [State.leave, Traced.result_bind]
  refine (H.dropLifetime hk h (by grind)).bind fun st hs => ?_
  have := hf st
  exact H.mono hs (by grind)

end Law

end Ownership
