import Ownership.Proofs.Owners
import Ownership.Proofs.Rules

/-!
# What a heap holds

The live cells of a store as a list of addresses with their cells, in any order
(`Store.Holds`). Such a list can be put together from the parts of a program that own
the cells, and each change of the store is a change of one entry of it.

* `Holds.put`, `Holds.allocate`, `Holds.free`, `Holds.freeCellsOf`: the list after a change.
* `Exchanged`: a write to a location hands out what was stored there.
* `Sound`: the heap is in balance and has no dangling reference. Such a heap passes every check
  that the machine makes (`Sound.checkHeap_ok`, `Sound.checkAfterDrop_ok`).
-/

namespace Ownership

namespace Value

variable {v w u u' old new : Value} {p q : List Nat}

theorem select?_append (v : Value) (p q : List Nat) :
    v.select? (p ++ q) = (v.select? p).bind fun u => u.select? q := by
  induction p generalizing v with
  | nil => simp [select?]
  | cons i p ih =>
    cases v with
    | compound vs =>
      simp only [List.cons_append, select?]
      cases vs[i]? with
      | none => rfl
      | some v => exact ih v
    | _ => rfl

theorem exists_replaceAt? (h : v.select? p = some old) (new : Value) :
    ∃ w, v.replaceAt? p new = some w := by
  induction p generalizing v with
  | nil => exact ⟨new, by simp [replaceAt?]⟩
  | cons i p ih =>
    cases v with
    | compound vs =>
      simp only [select?, Option.bind_eq_some_iff] at h
      obtain ⟨u, hu, h⟩ := h
      obtain ⟨w, hw⟩ := ih h
      exact ⟨.compound (vs.set i w), by simp [replaceAt?, hu, hw]⟩
    | _ => simp [select?] at h

theorem replaceAt?_append (h : v.select? p = some u) (h' : u.replaceAt? q new = some u') :
    v.replaceAt? (p ++ q) new = v.replaceAt? p u' := by
  induction p generalizing v with
  | nil =>
    simp only [select?, Option.some.injEq] at h
    subst h
    simpa [replaceAt?] using h'
  | cons i p ih =>
    cases v with
    | compound vs =>
      simp only [select?, Option.bind_eq_some_iff] at h
      obtain ⟨w, hw, h⟩ := h
      simp only [List.cons_append, replaceAt?, hw, Option.bind_some, ih h]
    | _ => simp [select?] at h

theorem replaceAt?_self (h : v.select? p = some u) : v.replaceAt? p u = some v := by
  induction p generalizing v with
  | nil =>
    simp only [select?, Option.some.injEq] at h
    simp [replaceAt?, h]
  | cons i p ih =>
    cases v with
    | compound vs =>
      simp only [select?, Option.bind_eq_some_iff] at h
      obtain ⟨w, hw, h⟩ := h
      simp only [replaceAt?, hw, Option.bind_some, ih h, Option.map_some, Option.some.injEq,
        compound.injEq]
      refine List.ext_getElem? fun j => ?_
      rw [List.getElem?_set]
      split
      · rename_i e
        subst e
        obtain ⟨hi, e⟩ := List.getElem?_eq_some_iff.1 hw
        simp [hi, ← e]
      · rfl
    | _ => simp [select?] at h

end Value

/-- Two lists of cells that differ at one location, where one has `old` and the other `new`. -/
def Exchanged (r : Reference) (old new : Value) (es es' : List (Nat × Cell)) : Prop :=
  ∃ l v v' rest, v.select? r.path = some old ∧ v.replaceAt? r.path new = some v' ∧
    es.Perm ((r.address, ⟨l, v⟩) :: rest) ∧ es'.Perm ((r.address, ⟨l, v'⟩) :: rest)

theorem Exchanged.append {r : Reference} {old new : Value} {es es' : List (Nat × Cell)}
    (h : Exchanged r old new es es') (xs : List (Nat × Cell)) :
    Exchanged r old new (es ++ xs) (es' ++ xs) := by
  obtain ⟨l, v, v', rest, hs, hr, hp, hp'⟩ := h
  exact ⟨l, v, v', rest ++ xs, hs, hr, hp.append_right xs, hp'.append_right xs⟩

theorem Exchanged.congr {r : Reference} {old new : Value} {es es' fs fs' : List (Nat × Cell)}
    (h : Exchanged r old new es es') (hp : fs.Perm es) (hp' : fs'.Perm es') :
    Exchanged r old new fs fs' := by
  obtain ⟨l, v, v', rest, hs, hr, he, he'⟩ := h
  exact ⟨l, v, v', rest, hs, hr, hp.trans he, hp'.trans he'⟩

namespace Store

variable {s s' : Store} {a n : Nat} {c d : Cell} {l : Lifetime} {r : Reference}
variable {v old new : Value} {vs ws : List Value} {es es' : List (Nat × Cell)}

/-- **The live cells of the store are those in the list.** -/
structure Holds (s : Store) (es : List (Nat × Cell)) : Prop where
  nodup : (es.map Prod.fst).Nodup
  cell : ∀ a c, s.cell? a = some c ↔ (a, c) ∈ es

namespace Holds

theorem congr (h : s.Holds es) (hp : es.Perm es') : s.Holds es' where
  nodup := (hp.map Prod.fst).nodup_iff.1 h.nodup
  cell := fun a c => (h.cell a c).trans hp.mem_iff

theorem cell_head (h : s.Holds ((a, c) :: es)) : s.cell? a = some c :=
  (h.cell a c).2 List.mem_cons_self

theorem notMem (h : s.Holds ((a, c) :: es)) : ∀ d, (a, d) ∉ es := fun d hd =>
  (List.nodup_cons.1 h.nodup).1 (List.mem_map.2 ⟨(a, d), hd, rfl⟩)

theorem put (h : s.Holds ((a, c) :: es)) (d : Cell) : (s.put a d).Holds ((a, d) :: es) where
  nodup := h.nodup
  cell := by
    intro b e
    rw [cell?_put h.cell_head, List.mem_cons, Prod.mk.injEq]
    split
    · rename_i hb
      subst hb
      simp [h.notMem e, eq_comm]
    · rename_i hb
      rw [h.cell b e, List.mem_cons, Prod.mk.injEq]
      simp [hb]

theorem free (h : s.Holds ((a, c) :: es)) : (s.free a).Holds es where
  nodup := (List.nodup_cons.1 h.nodup).2
  cell := by
    intro b e
    rw [cell?_free]
    split
    · rename_i hb
      subst hb
      simp [h.notMem e]
    · rename_i hb
      rw [h.cell b e, List.mem_cons, Prod.mk.injEq]
      simp [hb]

theorem allocate (h : s.Holds es) (l : Lifetime) (v : Value) :
    (s.allocate l v).1.Holds ((s.cells.size, ⟨l, v⟩) :: es) := by
  have hn : ∀ e, (s.cells.size, e) ∉ es := fun e he => by
    have := (h.cell _ _).2 he
    rw [cell?_size] at this
    cases this
  refine ⟨List.nodup_cons.2 ⟨fun he => ?_, h.nodup⟩, fun b e => ?_⟩
  · obtain ⟨⟨b, e⟩, he, rfl⟩ := List.mem_map.1 he
    exact hn e he
  · rw [cell?_allocate, List.mem_cons, Prod.mk.injEq]
    split
    · rename_i hb
      subst hb
      simp [hn e, eq_comm]
    · rename_i hb
      rw [h.cell b e]
      simp [hb]

theorem freeCellsOf (h : s.Holds es) (l : Lifetime) :
    (s.freeCellsOf l).Holds (es.filter fun e => e.2.lifetime != l) where
  nodup := h.nodup.sublist (List.filter_sublist.map Prod.fst)
  cell := by
    intro a c
    rw [cell?_freeCellsOf, Option.filter_eq_some_iff, h.cell a c, List.mem_filter]

/-- A write hands out what was stored at the location. -/
theorem exchange (h : s.Holds es) (hx : Exchanged r old new es es') :
    s.read r = .ok old ∧ ∃ s', s.write r new = .ok s' ∧ s'.Holds es' := by
  obtain ⟨l, v, v', rest, hs, hr, hp, hp'⟩ := hx
  have h := h.congr hp
  exact ⟨read_ok.2 ⟨_, h.cell_head, hs⟩, _, write_ok.2 ⟨_, _, h.cell_head, hr, rfl⟩,
    (h.put ⟨l, v'⟩).congr hp'.symm⟩

/-! ### All live cells -/

/-- The live cells with their addresses, in order. -/
def entriesFrom (n : Nat) : List (Option Cell) → List (Nat × Cell)
  | [] => []
  | none :: cs => entriesFrom (n + 1) cs
  | some c :: cs => (n, c) :: entriesFrom (n + 1) cs

theorem mem_entriesFrom {cs : List (Option Cell)} :
    (a, c) ∈ entriesFrom n cs ↔ n ≤ a ∧ cs[a - n]? = some (some c) := by
  induction cs generalizing n with
  | nil => simp [entriesFrom]
  | cons d cs ih =>
    -- the tail starts one address later
    have step : (n + 1 ≤ a ∧ cs[a - (n + 1)]? = some (some c)) ↔
        n ≤ a ∧ a ≠ n ∧ (d :: cs)[a - n]? = some (some c) := by
      constructor
      · rintro ⟨hle, hc⟩
        refine ⟨by omega, by omega, ?_⟩
        rw [show a - n = a - (n + 1) + 1 by omega, List.getElem?_cons_succ, hc]
      · rintro ⟨hle, hne, hc⟩
        refine ⟨by omega, ?_⟩
        rwa [show a - n = a - (n + 1) + 1 by omega, List.getElem?_cons_succ] at hc
    cases d with
    | none =>
      rw [entriesFrom, ih, step]
      constructor
      · rintro ⟨hle, -, hc⟩
        exact ⟨hle, hc⟩
      · rintro ⟨hle, hc⟩
        refine ⟨hle, ?_, hc⟩
        rintro rfl
        simp at hc
    | some d =>
      rw [entriesFrom, List.mem_cons, Prod.mk.injEq, ih, step]
      constructor
      · rintro (⟨rfl, rfl⟩ | ⟨hle, -, hc⟩)
        · simp
        · exact ⟨hle, hc⟩
      · rintro ⟨hle, hc⟩
        by_cases e : a = n
        · subst e
          simp only [Nat.sub_self, List.getElem?_cons_zero, Option.some.injEq] at hc
          exact .inl ⟨rfl, hc.symm⟩
        · exact .inr ⟨hle, e, hc⟩

theorem map_entriesFrom (cs : List (Option Cell)) :
    (entriesFrom n cs).map Prod.snd = cs.filterMap id := by
  induction cs generalizing n with
  | nil => rfl
  | cons d cs ih => cases d <;> simp [entriesFrom, ih]

theorem nodup_entriesFrom (cs : List (Option Cell)) : (entriesFrom n cs).Nodup := by
  induction cs generalizing n with
  | nil => exact List.nodup_nil
  | cons d cs ih =>
    cases d with
    | none => exact ih
    | some d =>
      refine List.nodup_cons.2 ⟨fun h => ?_, ih⟩
      have := (mem_entriesFrom.1 h).1
      omega

/-- The list has the live cells of the store, in another order. -/
theorem live_perm (h : s.Holds es) : s.live.Perm (es.map Prod.snd) := by
  have hn : es.Nodup := List.Pairwise.of_map Prod.fst (fun _ _ hne e => hne (e ▸ rfl)) h.nodup
  -- the same entries as those of the store in order, and none twice
  have hp : (entriesFrom 0 s.cells.toList).Perm es := by
    refine (List.perm_ext_iff_of_nodup (nodup_entriesFrom _) hn).2 fun ⟨a, c⟩ => ?_
    rw [mem_entriesFrom, ← h.cell, cell?_eq_some]
    simp
  rw [live, ← map_entriesFrom (n := 0)]
  exact hp.map Prod.snd

end Holds

/-! ### Checks -/

theorem mem_owners : a ∈ s.owners vs ↔ ∃ r ∈ s.held vs, r.owner = true ∧ r.address = a := by
  simp only [owners, List.mem_map, List.mem_filter, and_assoc]

/-- Either no reference dangles, or the check reports one that does. -/
theorem checkReferences_cases (s : Store) (vs : List Value) :
    (s.checkReferences vs = .ok () ∧ ∀ r ∈ s.held vs, ∃ c, s.cell? r.address = some c) ∨
    ∃ r ∈ s.held vs, s.cell? r.address = none ∧
      s.checkReferences vs = .error (s.missing r.address) := by
  rw [checkReferences]
  induction s.held vs with
  | nil => exact .inl ⟨rfl, nofun⟩
  | cons r rs ih =>
    have step : ∀ f : Reference → Except Fault Unit,
        (r :: rs).forM f = f r >>= fun _ => rs.forM f := fun _ => rfl
    rw [step]
    cases hc : s.cell r.address with
    | error e =>
      obtain ⟨hn, rfl⟩ := cell_error.1 hc
      exact .inr ⟨r, List.mem_cons_self, hn, rfl⟩
    | ok c =>
      simp only [Traced.ok_bind, pure, Except.pure] at ih ⊢
      rcases ih with ⟨h, hl⟩ | ⟨q, hq, hn, h⟩
      · exact .inl ⟨h, List.forall_mem_cons.2 ⟨⟨c, cell_ok.1 hc⟩, hl⟩⟩
      · exact .inr ⟨q, List.mem_cons_of_mem _ hq, hn, h⟩

theorem checkReferences_ok (h : ∀ r ∈ s.held vs, ∃ c, s.cell? r.address = some c) :
    s.checkReferences vs = .ok () := by
  rcases s.checkReferences_cases vs with ⟨hr, -⟩ | ⟨r, hr, hn, -⟩
  · exact hr
  · obtain ⟨c, hc⟩ := h r hr
    rw [hn] at hc
    cases hc

/-- The entry of an address is the number of its owners. -/
theorem mem_ownerCounts {n : Nat} :
    (a, n) ∈ s.ownerCounts vs ↔ a < s.size ∧ (s.owners vs).count a = n ∧ 0 < n := by
  simp only [ownerCounts, List.mem_filter, List.mem_map, List.mem_range, Prod.mk.injEq,
    decide_eq_true_eq]
  constructor
  · rintro ⟨⟨b, hb, rfl, rfl⟩, hn⟩
    exact ⟨hb, (getD_tally hb _).symm, hn⟩
  · rintro ⟨ha, rfl, hn⟩
    exact ⟨⟨a, ha, rfl, getD_tally ha _⟩, hn⟩

/-- In whatever order the counts are gone through, a shared cell is found if there is one. -/
theorem noneShared_iff [HashOrder] :
    (HashOrder.arrange (s.ownerCounts vs)).find? (fun entry => 1 < entry.2) = none ↔
      ∀ a < s.size, (s.owners vs).count a ≤ 1 := by
  simp only [List.find?_eq_none, (HashOrder.perm _).mem_iff, Prod.forall, decide_eq_true_eq,
    Nat.not_lt]
  constructor
  · intro h a ha
    rcases Nat.eq_zero_or_pos ((s.owners vs).count a) with hn | hn
    · omega
    · exact h a _ (mem_ownerCounts.2 ⟨ha, rfl, hn⟩)
  · intro h a n hn
    obtain ⟨ha, rfl, -⟩ := mem_ownerCounts.1 hn
    exact h a ha

/-- **What the check after a drop asks for**: no reference dangles, and no address has two
owners. -/
theorem checkAfterDrop_eq_ok [HashOrder] : s.checkAfterDrop vs = .ok () ↔
    (∀ r ∈ s.held vs, ∃ c, s.cell? r.address = some c) ∧ ∀ a, (s.owners vs).count a ≤ 1 := by
  rcases s.checkReferences_cases vs with ⟨hr, live⟩ | ⟨r, hr, hn, he⟩
  · have hcount : (∀ a < s.size, (s.owners vs).count a ≤ 1) ↔
        ∀ a, (s.owners vs).count a ≤ 1 := by
      refine ⟨fun h a => ?_, fun h a _ => h a⟩
      -- what has an owner is the address of a cell
      by_cases hmem : a ∈ s.owners vs
      · obtain ⟨r, hr, -, rfl⟩ := mem_owners.1 hmem
        obtain ⟨c, hc⟩ := live r hr
        exact h _ (lt_of_cell? hc)
      · rw [List.count_eq_zero.2 hmem]
        exact Nat.zero_le 1
    rw [checkAfterDrop, hr, Traced.ok_bind, ← hcount, ← noneShared_iff]
    cases hi : (HashOrder.arrange (s.ownerCounts vs)).find? fun entry => 1 < entry.2 with
    | none => exact ⟨fun _ => ⟨live, rfl⟩, fun _ => rfl⟩
    | some entry => exact ⟨nofun, nofun⟩
  · rw [checkAfterDrop, he]
    refine ⟨nofun, fun h => ?_⟩
    obtain ⟨c, hc⟩ := h.1 r hr
    rw [hn] at hc
    cases hc

/-- **The heap is in balance with the values held outside of it, and none of its references or
theirs dangles.** -/
structure Sound (s : Store) (vs : List Value) : Prop where
  balanced : s.Balanced vs
  live : ∀ r ∈ s.held vs, ∃ c, s.cell? r.address = some c

namespace Sound

/-- What is asked of the values is asked of their references. -/
theorem congr (h : s.Sound vs)
    (hp : (ws.flatMap Value.references).Perm (vs.flatMap Value.references)) : s.Sound ws := by
  have hh : (s.held ws).Perm (s.held vs) := by
    simp only [held, List.flatMap_append]
    exact hp.append_left _
  refine ⟨fun a => ?_, fun r hr => h.live r (hh.mem_iff.1 hr)⟩
  rw [← h.balanced a]
  exact ((hh.filter _).map _).count_eq a

theorem checkHeap_ok (h : s.Sound vs) : s.checkHeap vs = .ok () := by
  rw [checkHeap, checkReferences_ok h.live, Traced.ok_bind]
  -- in balance, every cell is owned as often as is due
  have hf : (List.range s.size).find? (s.miscounted (tally s.size (s.owners vs))) = none := by
    refine List.find?_eq_none.2 fun a ha => ?_
    have ha := List.mem_range.1 ha
    rw [miscounted]
    split
    · rename_i c hc
      have hd := h.balanced a
      rw [due, cell?_eq_some.2 hc, Option.elim_some] at hd
      rw [getD_tally ha, hd]
      simp
    · simp
  simp only [hf]
  rfl

/-- What passes the check is sound. -/
theorem of_checkHeap (h : s.checkHeap vs = .ok ()) : s.Sound vs := by
  rcases s.checkReferences_cases vs with ⟨hr, live⟩ | ⟨r, -, -, hr⟩
  · refine ⟨fun a => ?_, live⟩
    rw [checkHeap, hr, Traced.ok_bind] at h
    -- no cell is owned by more or by fewer than are due
    have counted : ∀ b < s.size, s.miscounted (tally s.size (s.owners vs)) b = false := by
      intro b hb
      cases hf : (List.range s.size).find? (s.miscounted (tally s.size (s.owners vs))) with
      | some b =>
        simp only [hf] at h
        cases h
      | none => simpa using List.find?_eq_none.1 hf b (List.mem_range.2 hb)
    rw [due]
    cases hc : s.cell? a with
    | none =>
      -- a hole has no owner, since no reference dangles
      refine List.count_eq_zero.2 fun ha => ?_
      obtain ⟨r, hr, -, rfl⟩ := mem_owners.1 ha
      obtain ⟨c, hc'⟩ := live r hr
      rw [hc] at hc'
      cases hc'
    | some c =>
      have ha : a < s.size := lt_of_cell? hc
      have hm := counted a ha
      rw [miscounted, cell?_eq_some.1 hc, getD_tally ha] at hm
      simpa using hm
  · rw [checkHeap, hr] at h
    cases h

/-- Fewer values pass the weaker check. -/
theorem checkAfterDrop_ok [HashOrder] (h : s.Sound (vs ++ ws)) : s.checkAfterDrop vs = .ok () := by
  have hh : s.held (vs ++ ws) = s.held vs ++ ws.flatMap Value.references := by
    simp [held]
  refine checkAfterDrop_eq_ok.2 ⟨fun r hr => h.live r (hh ▸ List.mem_append_left _ hr), fun a => ?_⟩
  have hd : (s.owners vs).count a ≤ s.due a := by
    rw [← h.balanced a, owners, owners, hh, List.filter_append, List.map_append,
      List.count_append]
    omega
  -- no cell is due to have more than one owner
  have h1 : s.due a ≤ 1 := by
    rw [due]
    cases s.cell? a with
    | none => simp
    | some c =>
      rw [Option.elim_some, ownersDue]
      split <;> omega
  exact Nat.le_trans hd h1

end Sound

end Store

end Ownership
