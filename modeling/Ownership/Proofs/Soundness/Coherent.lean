import Mathlib.Data.List.Perm.Basic
import Ownership.Proofs.Soundness.Safe

/-!
# States of a world

A state of the machine is coherent with a world if the frame binds its variables, the
store holds its contents, and the world is safe (`Coherent`). The contents `cs` are
held outside of the store: the value that has been found last, and the operands before it.

* `Coherent.sound`: the heap passes every check.
* `Coherent.locate`: the machine locates a place where the world has it.
* `Coherent.exchange`, `Coherent.drop`: writing and dropping do not fail.
* `Coherent.borrow_ok`, `Coherent.assign_ok` and so on: **each rule succeeds** and leads to a
  coherent state.
-/

namespace Ownership

variable {s : State} {l inner g : Lifetime} {W : World} {cs ds : List Content}
variable {c d old new left right : Content} {o : Loan} {p q t : Place} {loc : Reference}
variable {ok : Place → Prop} {a : Nat} {vs ws : List Value}

/-- **The state is one of the world `W`**, in the lifetime `l`, with the contents `cs` held outside
of the store. -/
structure Coherent (s : State) (l : Lifetime) (W : World) (cs : List Content) : Prop where
  safe : W.Safe cs
  holds : s.store.Holds (W.cells l.global cs)
  frame : ∀ x b, s.frame.get? x = some b ↔
    ∃ r ∈ W, r.name = x ∧ b = ⟨.borrowed r.home, r.level⟩
  level : ∀ r ∈ W, r.level.isRoot = false ∧ l.within r.level = true

theorem Content.lifetime_of_mem_cells {e : Nat × Cell} (h : e ∈ c.cells g) : e.2.lifetime = g := by
  induction c with
  | box a c ih =>
    rw [cells_box] at h
    rcases List.mem_cons.1 h with rfl | h
    · rfl
    · exact ih h
  | compound cs ih =>
    rw [cells_compound] at h
    obtain ⟨c, hc, h⟩ := List.mem_flatMap.1 h
    exact ih c hc h
  | _ => cases h

namespace World

/-- The addresses of all boxes. -/
def boxed (g : Lifetime) (W : World) (cs : List Content) : List Nat :=
  W.flatMap (fun r => (r.content.cells g).map Prod.fst) ++
    cs.flatMap fun c => (c.cells g).map Prod.fst

theorem keys_perm (g : Lifetime) (W : World) (cs : List Content) :
    ((W.cells g cs).map Prod.fst).Perm (W.map Root.home ++ W.boxed g cs) := by
  rw [cells, boxed, List.map_append, List.map_flatMap (l := cs), ← List.append_assoc]
  refine List.Perm.append_right _ ?_
  induction W with
  | nil => exact .rfl
  | cons r W ih =>
    refine List.perm_iff_count.2 fun a => ?_
    have := ih.count_eq a
    simp only [Root.cells, List.flatMap_cons, List.map_cons, List.map_append, List.cons_append,
      List.count_append, List.count_cons] at this ⊢
    omega

/-- What the cells and the contents own are the boxes. -/
theorem count_owned (g : Lifetime) (W : World) (cs : List Content) (a : Nat) :
    ((W.cells g cs).flatMap fun e => e.2.value.owned).count a +
      ((cs.map Content.value).flatMap Value.owned).count a = (W.boxed g cs).count a := by
  rw [cells, boxed, List.flatMap_append, List.count_append, List.count_append]
  have hW : ((W.flatMap (Root.cells g)).flatMap fun e => e.2.value.owned).count a =
      (W.flatMap fun r => (r.content.cells g).map Prod.fst).count a := by
    induction W with
    | nil => rfl
    | cons r W ih =>
      have := r.content.count_owned g a
      simp only [List.flatMap_cons, Root.cells, List.flatMap_append, List.cons_append,
        List.count_append] at this ⊢
      omega
  have hcs : ((cs.flatMap (Content.cells g)).flatMap fun e => e.2.value.owned).count a +
      ((cs.map Content.value).flatMap Value.owned).count a =
      (cs.flatMap fun c => (c.cells g).map Prod.fst).count a := by
    induction cs with
    | nil => rfl
    | cons c cs ih =>
      have := c.count_owned g a
      simp only [List.flatMap_cons, List.map_cons, List.flatMap_append, List.count_append] at this ⊢
      omega
  omega

theorem mem_boxed {e : Nat × Cell} (h : e ∈ W.cells g cs) :
    (∃ r ∈ W, e = (r.home, ⟨r.level, r.content.value⟩)) ∨
      (e.1 ∈ W.boxed g cs ∧ e.2.lifetime = g) := by
  rcases List.mem_append.1 h with h | h
  · obtain ⟨r, hr, h⟩ := List.mem_flatMap.1 h
    rcases List.mem_cons.1 h with h | h
    · exact .inl ⟨r, hr, h⟩
    · exact .inr ⟨List.mem_append_left _ (List.mem_flatMap.2 ⟨r, hr, List.mem_map_of_mem h⟩),
        Content.lifetime_of_mem_cells h⟩
  · obtain ⟨c, hc, h⟩ := List.mem_flatMap.1 h
    exact .inr ⟨List.mem_append_right _ (List.mem_flatMap.2 ⟨c, hc, List.mem_map_of_mem h⟩),
      Content.lifetime_of_mem_cells h⟩

end World

namespace Coherent

/-- What is asked of the contents held outside is asked of their borrows and their cells. -/
theorem congr (h : Coherent s l W cs)
    (hl : (ds.flatMap Content.loans).Perm (cs.flatMap Content.loans))
    (hc : (ds.flatMap (Content.cells l.global)).Perm (cs.flatMap (Content.cells l.global))) :
    Coherent s l W ds where
  safe := h.safe.congr hl
  holds := h.holds.congr (hc.symm.append_left _)
  frame := h.frame
  level := h.level

/-! ### The heap -/

theorem cell (h : Coherent s l W cs) {e : Nat × Cell} (he : e ∈ W.cells l.global cs) :
    s.store.cell? e.1 = some e.2 :=
  (h.holds.cell e.1 e.2).2 he

theorem balanced (h : Coherent s l W cs) : s.store.Balanced (cs.map Content.value) := by
  refine Store.Balanced.of_count fun a => ?_
  have hn : (W.map Root.home ++ W.boxed l.global cs).Nodup :=
    (World.keys_perm _ _ _).nodup_iff.1 h.holds.nodup
  have hc := W.count_owned l.global cs a
  rw [Store.owned_eq, (h.holds.live_perm.flatMap_right _).count_eq a, List.flatMap_map, hc]
  -- a box has one entry, the cell of a variable none, and other addresses do not occur
  cases he : s.store.cell? a with
  | none =>
    rw [Store.due, he, Option.elim_none, List.count_eq_zero]
    intro hm
    have hk := (World.keys_perm l.global W cs).mem_iff.2 (List.mem_append_right _ hm)
    obtain ⟨e, hem, rfl⟩ := List.mem_map.1 hk
    rw [h.cell hem] at he
    cases he
  | some c =>
    rw [Store.due, he, Option.elim_some, Store.ownersDue]
    rcases World.mem_boxed ((h.holds.cell a c).1 he) with ⟨r, hr, e⟩ | ⟨hb, hl⟩
    · cases e
      rw [if_neg (by simp [(h.level r hr).1]), List.count_eq_zero]
      exact fun hm => (List.nodup_append.1 hn).2.2 _ (List.mem_map_of_mem hr) _ hm rfl
    · rw [if_pos (by rw [hl]; exact l.global_isRoot)]
      rw [(List.nodup_append.1 hn).2.1.count, if_pos hb]

/-- The cell that a location lies in is live. -/
theorem exists_cell (h : Coherent s l W cs) (ha : W.At q d loc) :
    ∃ e, s.store.cell? loc.address = some e := by
  obtain ⟨r, hr, -, hw⟩ := ha
  have hm : ∀ e ∈ r.cells l.global, s.store.cell? e.1 = some e.2 := fun e he =>
    h.cell (List.mem_append_left _ (List.mem_flatMap.2 ⟨r, hr, he⟩))
  -- the location is in the variable's cell or in that of a box
  rcases Content.address_walk (g := l.global) hw with e | hk
  · exact ⟨_, e ▸ hm _ List.mem_cons_self⟩
  · obtain ⟨e, he, e'⟩ := List.mem_map.1 hk
    exact ⟨e.2, e' ▸ hm e (List.mem_cons_of_mem _ he)⟩

/-- **The heap of a coherent state passes every check.** -/
theorem sound (h : Coherent s l W cs) : s.store.Sound (cs.map Content.value) where
  balanced := h.balanced
  live := by
    intro x hx
    -- what a content refers to is one of its boxes or one of its borrows
    have live : ∀ {c : Content}, (∀ e ∈ c.cells l.global, e ∈ W.cells l.global cs) →
        (∀ o ∈ c.loans, o ∈ W.loans cs) →
        (x.address ∈ (c.cells l.global).map Prod.fst ∨
          ∃ o ∈ c.loans, x.address = o.location.address) →
        ∃ e, s.store.cell? x.address = some e := by
      intro c hcells hloans hx
      rcases hx with hx | ⟨o, ho, e⟩
      · obtain ⟨e, he, e'⟩ := List.mem_map.1 hx
        exact ⟨e.2, e' ▸ h.cell (hcells e he)⟩
      · obtain ⟨t, ht⟩ := h.safe.loans o (hloans o ho)
        obtain ⟨d, ha⟩ := ht.at
        rw [e]
        exact h.exists_cell ha
    rw [Store.held, List.flatMap_append, List.mem_append] at hx
    -- the reference is in a cell or in a value held outside
    rcases hx with hx | hx
    · rw [List.flatMap_map, List.mem_flatMap] at hx
      obtain ⟨c, hc, hx⟩ := hx
      obtain ⟨e, he, rfl⟩ := List.mem_map.1 (h.holds.live_perm.mem_iff.1 hc)
      rcases List.mem_append.1 he with he | he
      · obtain ⟨r, hr, he⟩ := List.mem_flatMap.1 he
        refine live (c := r.content)
          (fun e he => List.mem_append_left _
            (List.mem_flatMap.2 ⟨r, hr, List.mem_cons_of_mem _ he⟩))
          (fun o ho => List.mem_append_left _ (List.mem_flatMap.2 ⟨r, hr, ho⟩)) ?_
        rcases List.mem_cons.1 he with rfl | he
        · exact Content.mem_references hx
        · exact Content.mem_references_cells he hx
      · obtain ⟨c, hc, he⟩ := List.mem_flatMap.1 he
        exact live (c := c)
          (fun e he => List.mem_append_right _ (List.mem_flatMap.2 ⟨c, hc, he⟩))
          (fun o ho => List.mem_append_right _ (List.mem_flatMap.2 ⟨c, hc, ho⟩))
          (Content.mem_references_cells he hx)
    · rw [List.flatMap_map, List.mem_flatMap] at hx
      obtain ⟨c, hc, hx⟩ := hx
      exact live (c := c)
        (fun e he => List.mem_append_right _ (List.mem_flatMap.2 ⟨c, hc, he⟩))
        (fun o ho => List.mem_append_right _ (List.mem_flatMap.2 ⟨c, hc, ho⟩))
        (Content.mem_references hx)

/-! ### Places -/

theorem locate_extend (h : s.locate p = .ok loc) (rest : List Selector) :
    s.locate (p.extend rest) = rest.foldlM (State.follow s.store) loc := by
  rw [State.locate] at h ⊢
  simp only [Place.extend]
  cases hb : s.frame.get? p.name with
  | none =>
    rw [hb] at h
    cases h
  | some b =>
    simp only [hb] at h ⊢
    rw [List.foldlM_append, h]
    rfl

theorem locate_at (h : Coherent s l W cs) (ha : W.At p d loc) :
    s.locate p = .ok loc ∧ loc.owner = false := by
  obtain ⟨r, hr, e, hw⟩ := ha
  have hm : ∀ e ∈ r.cells l.global, s.store.cell? e.1 = some e.2 := fun e he =>
    h.cell (List.mem_append_left _ (List.mem_flatMap.2 ⟨r, hr, he⟩))
  refine ⟨?_, Content.owner_walk hw rfl⟩
  rw [State.locate, (h.frame p.name _).2 ⟨r, hr, e, rfl⟩]
  exact Content.follow_walk hw (hm _ List.mem_cons_self)
    (by simp [Reference.borrowed, Value.select?]) fun e he => hm e (List.mem_cons_of_mem _ he)

theorem read (h : Coherent s l W cs) (ha : W.At q d loc) : s.store.read loc = .ok d.value :=
  have h' : Coherent s l W (.gone :: cs) := h.congr .rfl .rfl
  (h'.holds.exchange (W.exchanged_put l.global h.safe.names ha .gone)).1

/-- **The machine locates a place where the world has it.** -/
theorem locate (h : Coherent s l W cs) (hr : W.Resolves ok p q loc) :
    s.locate p = .ok loc ∧ loc.owner = false := by
  induction hr with
  | here _ ha => exact h.locate_at ha
  | @through x π rest o loc qloc t q _ ha _ _ _ iht ih =>
    refine ⟨?_, ih.2⟩
    -- the value there is the borrow, which is of the location that is found
    have hf : State.follow s.store loc .deref = .ok o.location := by
      rw [State.follow, h.read ha]
      show Except.ok o.location.toBorrow.toBorrow = _
      obtain ⟨⟨_, _, _⟩, ho⟩ : ∃ r : Reference, o.location = r := ⟨_, rfl⟩
      rw [ho]
      have := iht.2
      rw [ho] at this
      cases this
      rfl
    -- from there on the machine goes the way it goes from the borrowed place
    have hx := locate_extend (h.locate_at ha).1 (.deref :: rest)
    rw [List.foldlM_cons, hf, Traced.ok_bind, ← locate_extend iht.1 rest, ih.1] at hx
    exact hx

/-! ### Changes of the heap -/

/-- A write exchanges a content in the world for one that is held outside. -/
theorem exchange (h : Coherent s l W (new :: cs)) (hq : W.At q old loc)
    (hs : (W.put q new).Safe (old :: cs)) : ∃ st, s.store.write loc new.value = .ok st ∧
      Coherent { s with store := st } l (W.put q new) (old :: cs) := by
  obtain ⟨-, st, hw, hh⟩ := h.holds.exchange (W.exchanged_put l.global h.safe.names hq new)
  refine ⟨st, hw, hs, hh, fun x b => (h.frame x b).trans ?_, fun r hr => ?_⟩
  · constructor
    · rintro ⟨r, hr, rfl, rfl⟩
      refine ⟨_, World.mem_put hr, ?_⟩
      split <;> exact ⟨rfl, rfl⟩
    · rintro ⟨r, hr, rfl, rfl⟩
      obtain ⟨r₀, hr₀, rfl⟩ := List.mem_map.1 hr
      refine ⟨r₀, hr₀, ?_⟩
      split <;> exact ⟨rfl, rfl⟩
  · obtain ⟨r₀, hr₀, -, e, -⟩ := World.Safe.mem_put hr
    rw [e]
    exact h.level r₀ hr₀

theorem drop (h : Coherent s l W (cs ++ ds)) : ∃ x,
    s.store.finalize (cs.map Content.value) = .ok x ∧ Coherent { s with store := x.1 } l W ds := by
  have hp : (W.cells l.global (cs ++ ds)).Perm
      (cs.flatMap (Content.cells l.global) ++ W.cells l.global ds) := by
    refine List.perm_iff_count.2 fun e => ?_
    simp only [World.cells, List.flatMap_append, List.count_append]
    omega
  obtain ⟨x, hx, hh⟩ := Content.finalize (h.holds.congr hp)
  exact ⟨x, hx, h.safe.drop, hh, h.frame, h.level⟩

theorem dropValue_ok [HashOrder] (h : Coherent s l W (c :: cs)) (vs : List Value)
    (hv : cs.map Content.value = vs ++ ws) :
    ∃ st, (s.store.dropValue c.value vs).result = .ok st ∧
      Coherent { s with store := st } l W cs := by
  have h : Coherent s l W ([c] ++ cs) := h
  obtain ⟨⟨st, n⟩, hx, h⟩ := h.drop
  exact ⟨st, Store.dropValue_ok.2 ⟨⟨n, hx⟩, (hv ▸ h.sound).checkAfterDrop_ok⟩, h⟩

/-! ### Rules -/

/-- A value that owns nothing is read and stays. -/
theorem access_stay (h : Coherent s l W cs) {k : AccessKind} (hr : W.Resolves ok p q loc)
    (ha : W.At q c loc) (hc : c ≠ .gone) (hk : k.moves c.value = false) :
    (s.access k p).result = .ok (s, c.value) := by
  refine State.access_ok.2 ⟨loc, (h.locate hr).1, h.read ha, ?_, by rw [if_neg (by simp [hk])]⟩
  intro hu
  cases c <;> simp [Content.value] at hu
  exact hc rfl

/-- A value is moved out and leaves nothing behind. -/
theorem access_move (h : Coherent s l W cs) {k : AccessKind} (ha : W.At p c loc) (hc : c ≠ .gone)
    (hk : k.moves c.value = true) (hcl : W.Clear cs p) : ∃ s',
      (s.access k p).result = .ok (s', c.value) ∧ Coherent s' l (W.put p .gone) (c :: cs) ∧
      s'.frame = s.frame := by
  -- to move is to exchange with nothing
  have h' : Coherent s l W (.gone :: cs) := h.congr .rfl .rfl
  obtain ⟨st, hw, hst⟩ := h'.exchange ha (h'.safe.put ha (fun o ho => hcl o ho) nofun)
  refine ⟨_, State.access_ok.2 ⟨loc, (h.locate_at ha).1, h.read ha, ?_, ?_⟩, hst, rfl⟩
  · intro hu
    cases c <;> simp [Content.value] at hu
    exact hc rfl
  · rw [if_pos hk]
    exact ⟨st, hw, rfl⟩

/-- A unique borrow is moved out and leaves a stale copy behind. -/
theorem age (h : Coherent s l W cs) (ha : W.At p c loc) (ho : c.value.containsOwner = false)
    (hcl : W.Clear cs p) : Coherent s l (W.put p c.age) (c :: cs) := by
  have hcells := Content.cells_of_containsOwner l.global ho
  have h' : Coherent s l W (c.age :: cs) := by
    refine ⟨h.safe.stale ha, h.holds.congr ?_, h.frame, h.level⟩
    rw [World.cells, World.cells, List.flatMap_cons, Content.cells_age, hcells]
    exact .rfl
  obtain ⟨st, hw, hst⟩ := h'.exchange ha (h.safe.age ha hcl)
  -- the copy has the same value, so nothing is written
  rw [Content.value_age] at hw
  have e : st = s.store := by
    obtain ⟨e, w, hc, hr, rfl⟩ := Store.write_ok.1 hw
    obtain ⟨e', hc', hs⟩ := Store.read_ok.1 (h.read ha)
    rw [hc] at hc'
    cases hc'
    rw [Value.replaceAt?_self hs] at hr
    cases hr
    rw [Store.put]
    congr 1
    have := Store.cell?_eq_some.1 hc
    obtain ⟨hi, hi'⟩ := Array.getElem?_eq_some_iff.1 this
    rw [Array.setIfInBounds_def, dif_pos hi, ← hi', Array.set_getElem_self]
  rw [e] at hst
  exact hst

theorem borrow_ok (h : Coherent s l W cs) (hr : W.Resolves ok p q loc) :
    (s.borrow p).result = .ok (.ref loc.toBorrow) :=
  State.borrow_ok.2 ⟨loc, (h.locate hr).1, rfl⟩

theorem box_ok (h : Coherent s l W (d :: cs)) : ∃ s' a,
    (s.box l d.value).result = .ok (s', (Content.box a d).value) ∧
      Coherent s' l W (.box a d :: cs) ∧ s'.frame = s.frame := by
  refine ⟨_, s.store.cells.size, State.box_ok.2 ⟨rfl, rfl⟩,
    ⟨h.safe.congr ?_, ?_, h.frame, h.level⟩, rfl⟩
  · simp
  · refine (h.holds.allocate l.global d.value).congr (List.perm_iff_count.2 fun e => ?_)
    simp only [World.cells, List.flatMap_cons, Content.cells_box, List.count_append,
      List.count_cons]
    omega

theorem bind_ok {x : String} (h : Coherent s l W (d :: cs)) (hx : ∀ r ∈ W, r.name ≠ x)
    (hl : l.isRoot = false) : ∃ s' a, (s.bind x l d.value).result = .ok (s', .unit) ∧
      Coherent s' l (⟨x, d, l, a⟩ :: W) cs ∧ s'.frame = s.frame.insert x ⟨.borrowed a, l⟩ ∧
      s.frame.get? x = none := by
  -- the name is not in the frame
  have hn : s.frame.get? x = none := by
    cases hb : s.frame.get? x with
    | none => rfl
    | some b =>
      obtain ⟨r, hr, e, -⟩ := (h.frame x b).1 hb
      exact absurd e (hx r hr)
  refine ⟨_, s.store.cells.size, State.bind_ok.2 ⟨rfl, rfl⟩, ?_, rfl, hn⟩
  refine ⟨h.safe.bind hx (fun r hr => (h.level r hr).2) _, ?_, fun y b => ?_, ?_⟩
  · refine (h.holds.allocate l d.value).congr (List.perm_iff_count.2 fun e => ?_)
    simp only [World.cells, Root.cells, List.flatMap_cons, List.cons_append, List.count_append,
      List.count_cons]
    omega
  · -- the frame has the new variable first
    show (s.frame.insert x ⟨.borrowed s.store.cells.size, l⟩).get? y = some b ↔ _
    rw [NameMap.get?_insert]
    split
    · rename_i e
      subst e
      constructor
      · intro e
        cases e
        exact ⟨_, List.mem_cons_self, rfl, rfl⟩
      · rintro ⟨r, hr, e, rfl⟩
        rcases List.mem_cons.1 hr with rfl | hr
        · rfl
        · exact absurd e (hx r hr)
    · rename_i hne
      rw [h.frame]
      constructor
      · rintro ⟨r, hr, e⟩
        exact ⟨r, List.mem_cons_of_mem _ hr, e⟩
      · rintro ⟨r, hr, e, e'⟩
        rcases List.mem_cons.1 hr with rfl | hr
        · exact absurd e.symm hne
        · exact ⟨r, hr, e, e'⟩
  · intro r hr
    rcases List.mem_cons.1 hr with rfl | hr
    · exact ⟨hl, l.within_self⟩
    · exact h.level r hr

theorem assign_ok [HashOrder] (h : Coherent s l W (d :: cs)) (hr : W.Resolves ok p q loc)
    (hq : W.At q old loc) (hc : W.Clear (d :: cs) q)
    (hl : ∀ o ∈ d.loans, ∀ r ∈ W, ∀ r' ∈ W, r.name = q.name → r'.name = o.target.name →
      r.level.within r'.level = true) : ∃ s', (s.assign p d.value).result = .ok (s', .unit) ∧
      Coherent s' l (W.put q d) cs ∧ s'.frame = s.frame := by
  -- the new content goes in, and what comes out is dropped
  obtain ⟨st, hw, hst⟩ := h.exchange hq (h.safe.put hq hc hl)
  obtain ⟨st', hd, hst'⟩ := hst.dropValue_ok [] rfl
  exact ⟨_, State.assign_ok.2 ⟨loc, _, st, st', (h.locate hr).1, h.read hq, hw, hd, rfl, rfl⟩, hst',
    rfl⟩

/-- The operands of a conditional are dropped, the left one first. -/
theorem branch_ok [HashOrder] (h : Coherent s l W (right :: left :: cs)) (taken : Term) :
    ∃ s', (s.branch left.value right.value taken).result = .ok s' ∧ Coherent s' l W cs ∧
      s'.frame = s.frame := by
  -- the order of what is held outside does not matter
  have h : Coherent s l W (left :: right :: cs) := by
    refine h.congr ?_ ?_ <;>
    · simp only [List.flatMap_cons, ← List.append_assoc]
      exact List.perm_append_comm.append_right _
  obtain ⟨st, hd, hst⟩ := h.dropValue_ok [right.value] rfl
  obtain ⟨st', hd', hst'⟩ := hst.dropValue_ok [] rfl
  exact ⟨_, State.branch_ok.2 ⟨st, st', hd, hd', rfl⟩, hst', rfl⟩

theorem discard_ok [HashOrder] (h : Coherent s l W (d :: cs)) :
    ∃ s', (s.discard d.value []).result = .ok s' ∧ Coherent s' l W cs ∧ s'.frame = s.frame := by
  obtain ⟨st, hd, hst⟩ := h.dropValue_ok [] rfl
  exact ⟨_, State.discard_ok.2 ⟨st, hd, rfl⟩, hst, rfl⟩

/-! ### The end of a block -/

theorem exists_perm_map {α β : Type} {f : α → β} {xs : List α} {ys : List β}
    (h : ys.Perm (xs.map f)) : ∃ zs : List α, zs.Perm xs ∧ zs.map f = ys := by
  have hc : Relation.Comp (fun ys xs => ys = List.map f xs) List.Perm ys xs := by
    rw [List.eq_map_comp_perm]
    exact h
  obtain ⟨zs, e, hp⟩ := hc
  exact ⟨zs, hp, e.symm⟩

/-- The cells of a block are those of its variables. -/
theorem cells_of_block (hg : g ≠ inner) (W : World) (cs : List Content) :
    ((W.cells g cs).filter fun e => e.2.lifetime == inner).map (fun e => e.2.value) =
      ((W.filter fun r => r.level == inner).map Root.content).map Content.value := by
  -- a box is in the heap, not in the block
  have boxes : ∀ c : Content, (c.cells g).filter (fun e => e.2.lifetime == inner) = [] := fun c =>
    List.filter_eq_nil_iff.2 fun e he => by simp [Content.lifetime_of_mem_cells he, hg]
  have outside : (cs.flatMap (Content.cells g)).filter (fun e => e.2.lifetime == inner) = [] := by
    rw [List.filter_eq_nil_iff]
    intro e he
    obtain ⟨c, -, he⟩ := List.mem_flatMap.1 he
    simp [Content.lifetime_of_mem_cells he, hg]
  rw [World.cells, List.filter_append, outside, List.append_nil]
  induction W with
  | nil => rfl
  | cons r W ih =>
    rw [List.flatMap_cons, List.filter_append, List.map_append, ih, Root.cells, List.filter_cons,
      List.filter_cons, boxes]
    by_cases e : r.level = inner <;> simp [e]

/-- The other cells are those of the boxes in them, and those around the block. -/
theorem cells_around_block (hg : g ≠ inner) (W : World) (cs : List Content) :
    ((W.cells g cs).filter fun e => e.2.lifetime != inner).Perm
      (((W.filter fun r => r.level == inner).map Root.content).flatMap (Content.cells g) ++
        World.cells g (W.filter fun r => r.level != inner) cs) := by
  have boxes : ∀ c : Content,
      (c.cells g).filter (fun e => e.2.lifetime != inner) = c.cells g := fun c =>
    List.filter_eq_self.2 fun e he => by simp [Content.lifetime_of_mem_cells he, hg]
  have outside : (cs.flatMap (Content.cells g)).filter (fun e => e.2.lifetime != inner) =
      cs.flatMap (Content.cells g) := by
    rw [List.filter_eq_self]
    intro e he
    obtain ⟨c, -, he⟩ := List.mem_flatMap.1 he
    simp [Content.lifetime_of_mem_cells he, hg]
  rw [World.cells, World.cells, List.filter_append, outside, ← List.append_assoc]
  refine List.Perm.append_right _ ?_
  induction W with
  | nil => exact .rfl
  | cons r W ih =>
    refine List.perm_iff_count.2 fun y => ?_
    have := ih.count_eq y
    rw [List.flatMap_cons, List.filter_append, Root.cells, List.filter_cons, boxes]
    by_cases e : r.level = inner
    · simp only [e, bne_self_eq_false, Bool.false_eq_true, if_false, beq_self_eq_true,
        List.filter_cons, if_true, List.map_cons, List.flatMap_cons, List.count_append] at this ⊢
      omega
    · simp only [bne_iff_ne.2 e, beq_eq_false_iff_ne.2 e, Bool.false_eq_true, if_false,
        List.filter_cons, if_true, List.flatMap_cons, Root.cells, List.count_append,
        List.count_cons, List.cons_append] at this ⊢
      omega

/-- **The end of a block** drops its variables, if nothing that is left borrows from them. -/
theorem leave_ok [HashOrder] {i : Nat} {f : NameMap Binding}
    (h : Coherent s (.inside i l) W (d :: cs))
    (hc : ∀ o ∈ (d :: cs).flatMap Content.loans, ∀ r ∈ W, r.name = o.target.name →
      r.level ≠ .inside i l) (hf : State.popFrame s.frame (.inside i l) = f) :
    ∃ s', (s.leave f (.inside i l) d.value).result = .ok (s', d.value) ∧
      Coherent s' l (W.filter fun r => r.level != .inside i l) (d :: cs) ∧ s'.frame = f := by
  have hg : l.global ≠ .inside i l := fun e => by
    have := l.global_isRoot
    rw [e] at this
    cases this
  -- the other variables are of blocks around this one
  have around : ∀ r ∈ W, r.level ≠ .inside i l → l.within r.level = true := by
    intro r hr hne
    have := (h.level r hr).2
    simp only [Lifetime.within, Bool.or_eq_true, beq_iff_eq] at this
    exact this.resolve_left (Ne.symm hne)
  -- the contents of the variables, in the order of their cells
  have hv : ((s.store.cellsOf (.inside i l)).map (·.value)).Perm
      (((W.filter fun r => r.level == .inside i l).map Root.content).map Content.value) := by
    rw [← cells_of_block hg W (d :: cs)]
    have := (h.holds.live_perm.filter fun c => c.lifetime == .inside i l).map (·.value)
    rwa [List.filter_map, List.map_map] at this
  obtain ⟨ds, hds, e⟩ := exists_perm_map hv
  -- the cells that are not freed with the block, those to drop first
  have hh := (h.holds.freeCellsOf (.inside i l)).congr ((cells_around_block hg W (d :: cs)).trans
    ((hds.flatMap_right (Content.cells l.global)).symm.append_right _))
  obtain ⟨⟨st, n⟩, hx, hh⟩ := Content.finalize hh
  have hco : Coherent ⟨f, st⟩ l (W.filter fun r => r.level != .inside i l) (d :: cs) := by
    refine ⟨h.safe.leave (fun r hr r' hr' hne hw e => ?_) hc, hh, fun x b => ?_, fun r hr => ?_⟩
    · have := Lifetime.within_trans (around r hr hne) (e ▸ hw)
      rw [Lifetime.not_within_inside] at this
      cases this
    · rw [← hf, State.popFrame, NameMap.get?_filter, Option.filter_eq_some_iff, h.frame]
      constructor
      · rintro ⟨⟨r, hr, e, rfl⟩, hl⟩
        exact ⟨r, List.mem_filter.2 ⟨hr, hl⟩, e, rfl⟩
      · rintro ⟨r, hr, e, rfl⟩
        obtain ⟨hr, hl⟩ := List.mem_filter.1 hr
        exact ⟨⟨r, hr, e, rfl⟩, hl⟩
    · obtain ⟨hr, hl⟩ := List.mem_filter.1 hr
      exact ⟨(h.level r hr).1, around r hr (by simpa using hl)⟩
  rw [e] at hx
  refine ⟨_, State.leave_ok.2 ⟨st, Store.dropLifetime_ok.2 ⟨⟨n, hx⟩, ?_⟩, rfl, rfl⟩, hco, rfl⟩
  exact (hco.sound : st.Sound ([d.value] ++ cs.map Content.value)).checkAfterDrop_ok

end Coherent

end Ownership
