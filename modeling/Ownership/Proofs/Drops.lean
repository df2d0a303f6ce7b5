import Ownership.Proofs.Changes
import Ownership.Proofs.Soundness.Heap

/-!
# What a drop frees

A drop frees what is owned and nothing else. What is owned is told without the order in which the
machine goes about it: everything that owners lead to from the values that are given up
(`Store.Reachable`).

* `Store.frees_of_finalize`: a drop whose work is done has freed just that, whether the heap was in
  balance or not.
* `Store.Frees.dropped`: the check after a drop finds what dangles, and in balance it finds nothing
  else.
* `drops_exactly`: **a drop frees exactly what is owned** and leaves a heap that passes its check,
  unless a borrow of what has been freed is left somewhere.
-/

namespace Ownership

namespace Store

variable {s s₁ s' : Store} {F : Nat → Prop} {work work' : List Nat} {n k a b : Nat} {c : Cell}
variable {r : Reference} {v : Value} {vs ws : List Value} {l : Lifetime}

/-! ### What is owned -/

/-- **Owners lead to the address** from one of those in `work`. -/
inductive Reachable (s : Store) (work : List Nat) : Nat → Prop where
  | root {a : Nat} : a ∈ work → Reachable s work a
  | step {a b : Nat} {c : Cell} : Reachable s work a → s.cell? a = some c → b ∈ c.value.owned →
      Reachable s work b

theorem Reachable.mono (hc : ∀ a c, s₁.cell? a = some c → s.cell? a = some c)
    (hw : ∀ a ∈ work', s.Reachable work a) (h : s₁.Reachable work' a) : s.Reachable work a := by
  induction h with
  | root ha => exact hw _ ha
  | step _ hb ho ih => exact .step ih (hc _ _ hb) ho

/-- What is reachable from owned addresses is owned. -/
theorem Reachable.mem_owners (hw : work ⊆ s.owners vs) (h : s.Reachable work a) :
    a ∈ s.owners vs := by
  cases h with
  | root ha => exact hw ha
  | step _ hb ho =>
    rw [owners_eq]
    exact List.mem_append_left _ (mem_owned.2 ⟨_, _, hb, ho⟩)

/-- A cell has been freed at the address. -/
def Freed (s s' : Store) (a : Nat) : Prop := (∃ c, s.cell? a = some c) ∧ s'.cell? a = none

/-- **Exactly the cells in `F` have been freed**, and nothing else has changed. -/
structure Frees (s : Store) (F : Nat → Prop) (s' : Store) : Prop where
  size : s'.size = s.size
  freed : ∀ a, F a → s.Freed s' a
  rest : ∀ a, ¬ F a → s'.cell? a = s.cell? a

namespace Frees

theorem cell (h : s.Frees F s') (hc : s'.cell? a = some c) : ¬ F a ∧ s.cell? a = some c := by
  have hF : ¬ F a := fun hF => by
    rw [(h.freed a hF).2] at hc
    cases hc
  exact ⟨hF, h.rest a hF ▸ hc⟩

theorem congr (h : s.Frees F s') {G : Nat → Prop} (hG : ∀ a, F a ↔ G a) : s.Frees G s' where
  size := h.size
  freed := fun a ha => h.freed a ((hG a).2 ha)
  rest := fun a ha => h.rest a fun hF => ha ((hG a).1 hF)

theorem trans {G : Nat → Prop} (h : s.Frees F s₁) (h' : s₁.Frees G s') :
    s.Frees (fun a => F a ∨ G a) s' where
  size := h'.size.trans h.size
  freed := by
    rintro a (hF | hG)
    · refine ⟨(h.freed a hF).1, ?_⟩
      cases hc : s'.cell? a with
      | none => rfl
      | some c => exact absurd hF (h.cell (h'.cell hc).2).1
    · obtain ⟨⟨c, hc⟩, hn⟩ := h'.freed a hG
      exact ⟨⟨c, (h.cell hc).2⟩, hn⟩
  rest := by
    intro a hn
    obtain ⟨hF, hG⟩ := not_or.1 hn
    rw [h'.rest a hG, h.rest a hF]

theorem of_freeCellsOf (s : Store) (l : Lifetime) :
    s.Frees (fun a => ∃ c, s.cell? a = some c ∧ c.lifetime = l) (s.freeCellsOf l) where
  size := size_freeCellsOf s l
  freed := by
    rintro a ⟨c, hc, rfl⟩
    refine ⟨⟨c, hc⟩, Option.eq_none_iff_forall_ne_some.2 fun d hd => ?_⟩
    obtain ⟨hd, hl⟩ := cell?_freeCellsOf_eq_some.1 hd
    rw [hc] at hd
    cases hd
    exact hl rfl
  rest := by
    intro a ha
    refine Option.ext fun d => cell?_freeCellsOf_eq_some.trans (and_iff_left_of_imp fun hd e => ?_)
    exact ha ⟨d, hd, e⟩

end Frees

/-! ### The work of a drop -/

/-- What is known of a drop that is done, whatever the order in which it went about its work: only
reachable cells have been freed, those of the work have been, and with a cell all that it owned. -/
structure Released (s : Store) (work : List Nat) (s' : Store) : Prop where
  size : s'.size = s.size
  cell : ∀ a, s'.cell? a = s.cell? a ∨ s.Freed s' a ∧ s.Reachable work a
  work : ∀ a ∈ work, s.Freed s' a
  content : ∀ a c, s.cell? a = some c → s'.cell? a = none →
    ∀ b ∈ c.value.owned, s.Freed s' b

namespace Released

theorem nil (s : Store) : s.Released [] s where
  size := rfl
  cell := fun _ => .inl rfl
  work := nofun
  content := by
    intro a c hc hn
    rw [hn] at hc
    cases hc

/-- The first address is freed, and its content joins the work. -/
theorem cons (hc : s.cell? a = some c)
    (h : (s.free a).Released (c.value.owned.reverse ++ work) s') : s.Released (a :: work) s' := by
  have old : ∀ b d, (s.free a).cell? b = some d → s.cell? b = some d := fun b d hd =>
    (cell?_free_eq_some.1 hd).2
  have freed : ∀ b, (s.free a).Freed s' b → s.Freed s' b := fun b hb =>
    hb.imp_left fun ⟨d, hd⟩ => ⟨d, old b d hd⟩
  have head : s.Freed s' a := by
    refine ⟨⟨c, hc⟩, ?_⟩
    rcases h.cell a with e | ⟨hf, -⟩
    · rw [e, cell?_free, if_pos rfl]
    · exact hf.2
  refine ⟨h.size.trans (size_free s a), fun b => ?_, fun b hb => ?_, fun b d hd hn x hx => ?_⟩
  · by_cases e : b = a
    · exact .inr ⟨e ▸ head, .root (e ▸ List.mem_cons_self)⟩
    · refine (h.cell b).imp (fun hb => ?_) fun ⟨hf, hr⟩ => ⟨freed b hf, hr.mono old fun x hx => ?_⟩
      · rw [hb, cell?_free, if_neg e]
      · rcases List.mem_append.1 hx with hx | hx
        · exact .step (.root List.mem_cons_self) hc (List.mem_reverse.1 hx)
        · exact .root (List.mem_cons_of_mem _ hx)
  · rcases List.mem_cons.1 hb with rfl | hb
    · exact head
    · exact freed b (h.work b (List.mem_append_right _ hb))
  · by_cases e : b = a
    · rw [e, hc] at hd
      cases hd
      exact freed x (h.work x (List.mem_append_left _ (List.mem_reverse.2 hx)))
    · exact freed x (h.content b d (cell?_free_eq_some.2 ⟨e, hd⟩) hn x hx)

theorem of_release (h : s.release n work = .ok (s', k)) : s.Released work s' := by
  induction n generalizing s work k with
  | zero =>
    cases work with
    | nil =>
      cases h
      exact .nil _
    | cons a work => cases h
  | succ n ih =>
    cases work with
    | nil =>
      cases h
      exact .nil _
    | cons a work =>
      rw [release, Traced.bind_eq_ok] at h
      obtain ⟨c, hc, h⟩ := h
      rw [Traced.bind_eq_ok] at h
      obtain ⟨x, h, e⟩ := h
      cases e
      exact .cons (cell_ok.1 hc) (ih h)

/-- Owners lead nowhere but to cells that have been freed. -/
theorem frees (h : s.Released work s') : s.Frees (s.Reachable work) s' where
  size := h.size
  freed := by
    intro a ha
    induction ha with
    | root ha => exact h.work _ ha
    | step _ hc ho ih => exact h.content _ _ hc ih.2 _ ho
  rest := fun a ha => (h.cell a).resolve_right fun hr => ha hr.2

end Released

/-- **What is owned has been freed, and nothing else.** -/
theorem frees_of_finalize (h : s.finalize vs = .ok (s', k)) :
    s.Frees (s.Reachable (vs.flatMap Value.owned)) s' := by
  refine (Released.of_release h).frees.congr fun a => ⟨fun ha => ?_, fun ha => ?_⟩
  · exact ha.mono (fun _ _ hc => hc) fun b hb => .root (List.mem_reverse.1 hb)
  · exact ha.mono (fun _ _ hc => hc) fun b hb => .root (List.mem_reverse.2 hb)

/-! ### What is left behind -/

/-- A reference to `a` is left, in a cell that is not in `F` or in one of the values. -/
def Refers (s : Store) (F : Nat → Prop) (vs : List Value) (a : Nat) : Prop :=
  (∃ b c, ¬ F b ∧ s.cell? b = some c ∧ ∃ r ∈ c.value.references, r.address = a) ∨
    ∃ v ∈ vs, ∃ r ∈ v.references, r.address = a

theorem mem_held : r ∈ s.held vs ↔
    (∃ b c, s.cell? b = some c ∧ r ∈ c.value.references) ∨ ∃ v ∈ vs, r ∈ v.references := by
  rw [held, List.flatMap_append, List.mem_append, List.mem_flatMap, List.mem_flatMap]
  refine or_congr_left ⟨?_, ?_⟩
  · rintro ⟨v, hv, hr⟩
    obtain ⟨c, hc, rfl⟩ := List.mem_map.1 hv
    obtain ⟨b, hb⟩ := mem_live.1 hc
    exact ⟨b, c, hb, hr⟩
  · rintro ⟨b, c, hb, hr⟩
    exact ⟨c.value, List.mem_map_of_mem (mem_live.2 ⟨b, hb⟩), hr⟩

namespace Frees

/-- The references that are left are those of the heap after the drop. -/
theorem refers_iff (h : s.Frees F s') : s.Refers F vs a ↔ ∃ r ∈ s'.held vs, r.address = a := by
  constructor
  · rintro (⟨b, c, hb, hc, r, hr, rfl⟩ | ⟨v, hv, r, hr, rfl⟩)
    · exact ⟨r, mem_held.2 (.inl ⟨b, c, (h.rest b hb).trans hc, hr⟩), rfl⟩
    · exact ⟨r, mem_held.2 (.inr ⟨v, hv, hr⟩), rfl⟩
  · rintro ⟨r, hr, rfl⟩
    rcases mem_held.1 hr with ⟨b, c, hc, hr⟩ | ⟨v, hv, hr⟩
    · obtain ⟨hb, hc⟩ := h.cell hc
      exact .inl ⟨b, c, hb, hc, r, hr, rfl⟩
    · exact .inr ⟨v, hv, r, hr, rfl⟩

theorem held_subset (h : s.Frees F s') : s'.held vs ⊆ s.held vs := by
  intro r hr
  refine mem_held.2 ((mem_held.1 hr).imp_left ?_)
  rintro ⟨b, c, hc, hr⟩
  exact ⟨b, c, (h.cell hc).2, hr⟩

end Frees

/-- **What may come of a drop** that is to free the cells in `F`, with the values held that are in
`vs`. -/
inductive Dropped (s : Store) (F : Nat → Prop) (vs : List Value) : Except Fault Store → Prop where
  /-- The cells have been freed, and nothing refers to them. -/
  | freed {s' : Store} : s.Frees F s' → s'.checkHeap vs = .ok () → (∀ a, F a → ¬ s.Refers F vs a) →
      Dropped s F vs (.ok s')
  | dangling {a : Nat} : F a → s.Refers F vs a →
      Dropped s F vs (.error (.danglingReference a))

/-- The check after a drop finds what dangles. -/
theorem Frees.dropped [HashOrder] (hf : s.Frees F s') (hb : s'.Balanced vs)
    (hl : ∀ r ∈ s.held vs, ∃ c, s.cell? r.address = some c) :
    s.Dropped F vs ((s'.checkAfterDrop vs).map fun _ => s') := by
  rcases s'.checkReferences_cases vs with ⟨-, live⟩ | ⟨r, hr, hn, he⟩
  · have sound : s'.Sound (vs ++ []) := (List.append_nil vs).symm ▸ ⟨hb, live⟩
    rw [sound.checkAfterDrop_ok]
    rw [List.append_nil] at sound
    refine .freed hf sound.checkHeap_ok fun a ha hr => ?_
    obtain ⟨r, hm, rfl⟩ := hf.refers_iff.1 hr
    obtain ⟨c, hc⟩ := live r hm
    exact (hf.cell hc).1 ha
  · -- the reference had a target before, which has gone with the drop
    obtain ⟨c, hc⟩ := hl r (hf.held_subset hr)
    have hF : F r.address := by
      by_cases hF : F r.address
      · exact hF
      · rw [hf.rest _ hF, hc] at hn
        cases hn
    have hs : r.address < s'.cells.size := Nat.lt_of_lt_of_eq (lt_of_cell? hc) hf.size.symm
    have hd : s'.checkAfterDrop vs = .error (.danglingReference r.address) := by
      rw [checkAfterDrop, he, Traced.error_bind, missing, if_pos hs]
    rw [hd]
    exact .dangling hF (hf.refers_iff.2 ⟨r, hr, rfl⟩)

theorem dropValue_dropped [HashOrder] (h : s.Sound (v :: vs)) :
    s.Dropped (s.Reachable v.owned) vs (s.dropValue v vs).result := by
  have hv : s.Balanced ([v] ++ vs) := h.balanced
  obtain ⟨x, hx, hb⟩ := hv.finalize
  have hf := frees_of_finalize hx
  rw [List.flatMap_singleton] at hf
  rw [dropValue_result, hx]
  refine hf.dropped hb fun r hr => h.live r ?_
  rcases mem_held.1 hr with hr | ⟨w, hw, hr⟩
  · exact mem_held.2 (.inl hr)
  · exact mem_held.2 (.inr ⟨w, List.mem_cons_of_mem _ hw, hr⟩)

/-- The cells of a block are not owned, so what owners lead to is found without them as well. -/
theorem Reachable.of_freeCellsOf (h : s.Owned vs) (hl : l.isRoot = false)
    (hw : work ⊆ s.owners vs) (ha : s.Reachable work a) : (s.freeCellsOf l).Reachable work a := by
  induction ha with
  | root ha => exact .root ha
  | @step a b c ha hc ho ih =>
    obtain ⟨d, hd, hr⟩ := h.target a (ha.mem_owners hw)
    rw [← cell?_eq_some, hc] at hd
    cases hd
    have hne : c.lifetime ≠ l := by
      rintro rfl
      rw [hl] at hr
      cases hr
    exact .step ih (cell?_freeCellsOf_eq_some.2 ⟨hc, hne⟩) ho

theorem dropLifetime_dropped [HashOrder] (h : s.Sound vs) (hl : l.isRoot = false) :
    s.Dropped (fun a => (∃ c, s.cell? a = some c ∧ c.lifetime = l) ∨
      s.Reachable (((s.cellsOf l).map (·.value)).flatMap Value.owned) a) vs
      (s.dropLifetime l vs).result := by
  obtain ⟨x, hx, hb⟩ := (h.balanced.freeCellsOf hl).finalize
  have hw : ((s.cellsOf l).map (·.value)).flatMap Value.owned ⊆ s.owners vs := by
    intro a ha
    obtain ⟨v, hv, ha⟩ := List.mem_flatMap.1 ha
    obtain ⟨c, hc, rfl⟩ := List.mem_map.1 hv
    obtain ⟨b, hb⟩ := mem_live.1 (List.mem_filter.1 hc).1
    rw [owners_eq]
    exact List.mem_append_left _ (mem_owned.2 ⟨b, c, hb, ha⟩)
  have hf := (Frees.of_freeCellsOf s l).trans (frees_of_finalize hx)
  rw [dropLifetime_result, hx]
  refine (hf.congr fun a => or_congr_right ⟨fun ha => ?_, fun ha => ?_⟩).dropped hb h.live
  · exact ha.mono (fun _ _ hc => ((Frees.of_freeCellsOf s l).cell hc).2) fun b hb => .root hb
  · exact ha.of_freeCellsOf (owned_iff.2 h.balanced) hl hw

end Store

/-- **A drop frees exactly what is owned.** The heap passes its check with the values in `vs`, and
with `v` besides where that is dropped. A drop of `v` frees what owners lead to from `v`, and the
end of a block frees the cells of its lifetime and what owners lead to from there; all other cells
are as they were, and the heap passes its check with the values in `vs`. If a reference to what has
been freed is left in a cell or in one of the values, the drop fails for the address of such
a reference, and it fails in no other way. -/
theorem drops_exactly [HashOrder] (s : Store) (vs : List Value) :
    (∀ v, s.checkHeap (v :: vs) = .ok () →
      s.Dropped (s.Reachable v.owned) vs (s.dropValue v vs).result) ∧
    ∀ l : Lifetime, l.isRoot = false → s.checkHeap vs = .ok () →
      s.Dropped (fun a => (∃ c, s.cell? a = some c ∧ c.lifetime = l) ∨
        s.Reachable (((s.cellsOf l).map (·.value)).flatMap Value.owned) a) vs
        (s.dropLifetime l vs).result :=
  ⟨fun _ h => Store.dropValue_dropped (.of_checkHeap h),
    fun _ hl h => Store.dropLifetime_dropped (.of_checkHeap h) hl⟩

/-- A variable owns a box with a tuple that owns a box. A fourth cell is owned by a value that is
held. -/
def boxes : Store where
  cells := #[some ⟨.inside 1 (.root 0), .ref (.owned 1)⟩,
    some ⟨.root 0, .compound [.int 1, .ref (.owned 2)]⟩, some ⟨.root 0, .int 7⟩,
    some ⟨.root 0, .int 5⟩]

/-- The box that is held goes, unless a borrow of it is held besides; or the block is left, and the
other cells go. -/
theorem drops_exactly_boxes :
    boxes.Dropped (boxes.Reachable [3]) [] (.ok (boxes.free 3)) ∧
    boxes.Dropped (boxes.Reachable [3]) [.ref (.borrowed 3)] (.error (.danglingReference 3)) ∧
    boxes.Dropped (fun a => (∃ c, boxes.cell? a = some c ∧ c.lifetime = .inside 1 (.root 0)) ∨
      boxes.Reachable [1] a) [.ref (.owned 3)]
      (.ok ⟨#[none, none, none, some ⟨.root 0, .int 5⟩]⟩) := by
  refine ⟨?_, ?_, ?_⟩
  · have run : (boxes.dropValue (.ref (.owned 3)) []).result = .ok (boxes.free 3) :=
      ok_of_toOption (by decide +kernel)
    exact run ▸ (drops_exactly boxes []).1 (.ref (.owned 3)) rfl
  · have run : (boxes.dropValue (.ref (.owned 3)) [.ref (.borrowed 3)]).result =
        .error (.danglingReference 3) := rfl
    exact run ▸ (drops_exactly boxes [.ref (.borrowed 3)]).1 (.ref (.owned 3)) rfl
  · have run : (boxes.dropLifetime (.inside 1 (.root 0)) [.ref (.owned 3)]).result =
        .ok ⟨#[none, none, none, some ⟨.root 0, .int 5⟩]⟩ := ok_of_toOption (by decide +kernel)
    exact run ▸ (drops_exactly boxes [.ref (.owned 3)]).2 (.inside 1 (.root 0)) rfl rfl

end Ownership
