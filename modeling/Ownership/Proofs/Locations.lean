import Ownership.Proofs.Soundness.Heap

/-!
# Reading and writing locations

A location is a part of the value in a cell. What is written there is read there, and the parts of
it are those of the value that has been written; a location that is neither around nor inside of the
one that is written stays as it was, be it a part of the same cell or of another one, or no location
at all.

* `Value.select?_replaceAt?_apart`: **a part that lies apart stays as it was.**
* `Store.read_write`: **reads and writes are the two sides of a lens.**
-/

namespace Ownership

namespace Value

variable {v w u new : Value} {p q : List Nat} {i : Nat}

/-- What it takes to replace a part of a component. -/
theorem replaceAt?_cons : v.replaceAt? (i :: p) new = some w ↔ ∃ vs u u', v = .compound vs ∧
    vs[i]? = some u ∧ u.replaceAt? p new = some u' ∧ w = .compound (vs.set i u') := by
  cases v with
  | compound vs =>
    simp only [replaceAt?, Option.bind_eq_some_iff, Option.map_eq_some_iff]
    constructor
    · rintro ⟨u, hu, u', hu', rfl⟩
      exact ⟨vs, u, u', rfl, hu, hu', rfl⟩
    · rintro ⟨_, u, u', ⟨⟩, hu, hu', rfl⟩
      exact ⟨u, hu, u', hu', rfl⟩
  | _ => simp [replaceAt?]

/-- A part can be replaced just if it is there. -/
theorem replaceAt?_eq_none (new : Value) : v.replaceAt? p new = none ↔ v.select? p = none := by
  constructor
  · intro h
    cases hs : v.select? p with
    | none => rfl
    | some u =>
      obtain ⟨w, hw⟩ := exists_replaceAt? hs new
      cases h.symm.trans hw
  · intro h
    induction p generalizing v with
    | nil => cases h
    | cons i p ih =>
      cases hr : v.replaceAt? (i :: p) new with
      | none => rfl
      | some w =>
        obtain ⟨vs, u, u', rfl, hu, hu', -⟩ := replaceAt?_cons.1 hr
        simp only [select?, hu, Option.bind_some] at h
        cases (ih h).symm.trans hu'

theorem select?_set_self {vs : List Value} (hu : vs[i]? = some u) (w : Value) :
    (compound (vs.set i w)).select? (i :: p) = w.select? p := by
  have hi : i < vs.length := (List.getElem?_eq_some_iff.1 hu).1
  simp [select?, hi]

/-- What has been put in is found there. -/
theorem select?_replaceAt? (h : v.replaceAt? p new = some w) : w.select? p = some new := by
  induction p generalizing v w with
  | nil =>
    simp only [replaceAt?, Option.some.injEq] at h
    rw [h, select?]
  | cons i p ih =>
    obtain ⟨vs, u, u', rfl, hu, hu', rfl⟩ := replaceAt?_cons.1 h
    rw [select?_set_self hu, ih hu']

/-- **A part that lies apart stays as it was.** -/
theorem select?_replaceAt?_apart (h : v.replaceAt? p new = some w) (hp : ¬ p <+: q)
    (hq : ¬ q <+: p) : w.select? q = v.select? q := by
  induction p generalizing v w q with
  | nil => exact absurd List.nil_prefix hp
  | cons i p ih =>
    obtain ⟨vs, u, u', rfl, hu, hu', rfl⟩ := replaceAt?_cons.1 h
    cases q with
    | nil => exact absurd List.nil_prefix hq
    | cons j q =>
      by_cases hij : i = j
      · subst hij
        rw [List.cons_prefix_cons, not_and] at hp hq
        rw [select?_set_self hu, ih hu' (hp rfl) (hq rfl), select?, hu, Option.bind_some]
      · rw [select?, select?, List.getElem?_set_ne hij]

/-- What has been replaced before makes no difference to what is put in later. -/
theorem replaceAt?_replaceAt? (h : v.replaceAt? p new = some w) (new' : Value) :
    w.replaceAt? p new' = v.replaceAt? p new' := by
  induction p generalizing v w with
  | nil => rw [replaceAt?, replaceAt?]
  | cons i p ih =>
    obtain ⟨vs, u, u', rfl, hu, hu', rfl⟩ := replaceAt?_cons.1 h
    have hi : i < vs.length := (List.getElem?_eq_some_iff.1 hu).1
    rw [replaceAt?, replaceAt?, List.getElem?_set_self hi, hu, Option.bind_some, Option.bind_some,
      ih hu']
    simp only [List.set_set]

end Value

namespace Store

variable {s s' : Store} {r t : Reference} {v old new : Value} {c d : Cell} {a : Nat} {f : Fault}

theorem read_of_hole (hc : s.cell? r.address = none) : s.read r = .error (s.missing r.address) := by
  rw [read, cell_error.2 ⟨hc, rfl⟩, Traced.error_bind]

theorem write_of_hole (hc : s.cell? r.address = none) :
    s.write r v = .error (s.missing r.address) := by
  rw [write, cell_error.2 ⟨hc, rfl⟩, Traced.error_bind]

theorem read_of_cell (hc : s.cell? r.address = some c) :
    s.read r = (c.value.select? r.path).elim (.error (.invalidPath r.address)) .ok := by
  rw [read, cell_ok.2 hc, Traced.ok_bind]
  cases c.value.select? r.path <;> rfl

theorem write_of_cell (hc : s.cell? r.address = some c) : s.write r v =
    (c.value.replaceAt? r.path v).elim (.error (.invalidPath r.address))
      fun w => .ok (s.put r.address ⟨c.lifetime, w⟩) := by
  rw [write, cell_ok.2 hc, Traced.ok_bind]
  cases c.value.replaceAt? r.path v <;> rfl

/-- **A location can be written just if it can be read**, and fails to be with the same fault. -/
theorem write_error_iff (v : Value) : s.write r v = .error f ↔ s.read r = .error f := by
  cases hc : s.cell? r.address with
  | none => rw [read_of_hole hc, write_of_hole hc]; simp
  | some c =>
    rw [read_of_cell hc, write_of_cell hc]
    cases hs : c.value.select? r.path with
    | none => rw [(Value.replaceAt?_eq_none v).2 hs]; simp
    | some u =>
      obtain ⟨w, hw⟩ := Value.exists_replaceAt? hs v
      rw [hw]
      simp

theorem write_ok_iff (v : Value) : (∃ s', s.write r v = .ok s') ↔ ∃ old, s.read r = .ok old := by
  cases hr : s.read r with
  | error f => simp [(write_error_iff v).2 hr]
  | ok old =>
    cases hw : s.write r v with
    | error f => cases hr.symm.trans ((write_error_iff v).1 hw)
    | ok s' => simp

/-- A write leaves a fault as it was for an address without a cell. -/
theorem missing_put (s : Store) (a : Nat) (c : Cell) (b : Nat) :
    (s.put a c).missing b = s.missing b := by
  simp [missing, put]

/-- What is read at another address does not depend on the cell. -/
theorem read_put_ne (hc : s.cell? a = some c) (ht : t.address ≠ a) :
    (s.put a d).read t = s.read t := by
  have hcell : (s.put a d).cell? t.address = s.cell? t.address := by rw [cell?_put hc, if_neg ht]
  cases hs : s.cell? t.address with
  | none => rw [read_of_hole hs, read_of_hole (hcell.trans hs), missing_put]
  | some e => rw [read_of_cell hs, read_of_cell (hcell.trans hs)]

/-- What is read at the address is a part of the new value in the cell. -/
theorem read_put_self (hc : s.cell? a = some c) (ht : t.address = a) : (s.put a d).read t =
    (d.value.select? t.path).elim (.error (.invalidPath t.address)) .ok := by
  refine read_of_cell ?_
  rw [cell?_put hc, if_pos ht]

theorem put_put (s : Store) (a : Nat) (c d : Cell) : (s.put a c).put a d = s.put a d := by
  simp [put]

theorem put_self (hc : s.cell? a = some c) : s.put a c = s := by
  refine congrArg Store.mk (Array.ext_getElem? fun b => ?_)
  rw [Array.getElem?_setIfInBounds]
  split
  · rename_i e
    rw [← e, if_pos (lt_of_cell? hc), cell?_eq_some.1 hc]
  · rfl

/-! ### The laws -/

/-- A location inside of the one that is written is a part of the value that is put there. -/
theorem read_inside (h : s.write r v = .ok s') (ha : t.address = r.address) {q : List Nat}
    (hq : t.path = r.path ++ q) :
    s'.read t = (v.select? q).elim (.error (.invalidPath r.address)) .ok := by
  obtain ⟨c, w, hc, hw, rfl⟩ := write_ok.1 h
  rw [read_put_self hc ha, hq, ha, Value.select?_append, Value.select?_replaceAt? hw,
    Option.bind_some]

theorem read_apart (h : s.write r v = .ok s')
    (ht : t.address ≠ r.address ∨ ¬ r.path <+: t.path ∧ ¬ t.path <+: r.path) :
    s'.read t = s.read t := by
  obtain ⟨c, w, hc, hw, rfl⟩ := write_ok.1 h
  by_cases ha : t.address = r.address
  · obtain ⟨hr, ht⟩ := ht.resolve_left (absurd ha)
    rw [read_put_self hc ha, Value.select?_replaceAt?_apart hw hr ht, read_of_cell (ha ▸ hc)]
  · exact read_put_ne hc ha

theorem write_again (h : s.write r v = .ok s') (new : Value) :
    s'.write r new = s.write r new := by
  obtain ⟨c, w, hc, hw, rfl⟩ := write_ok.1 h
  have hcell : (s.put r.address ⟨c.lifetime, w⟩).cell? r.address = some ⟨c.lifetime, w⟩ := by
    rw [cell?_put hc, if_pos rfl]
  rw [write_of_cell hcell, write_of_cell hc, Value.replaceAt?_replaceAt? hw]
  simp only [put_put]

/-- What has been read may be written back. -/
theorem write_of_read (h : s.read r = .ok old) : s.write r old = .ok s := by
  obtain ⟨c, hc, hs⟩ := read_ok.1 h
  refine write_ok.2 ⟨c, c.value, hc, Value.replaceAt?_self hs, ?_⟩
  rw [put_self hc]

/-- **Reads and writes are the two sides of a lens.** A location can be written just if it can be
read, and the faults are the same. Then the value that has been written is read, and a location
inside of this one is the part of the value that its path picks, or none. What is read at other
addresses, and at paths that are neither around nor inside of the one that is written, is as before,
with all faults. To write what has been read changes nothing, and of two writes the second one
counts. -/
theorem read_write (s : Store) (r : Reference) (v : Value) :
    ((∃ s', s.write r v = .ok s') ↔ ∃ old, s.read r = .ok old) ∧
    (∀ f, s.write r v = .error f ↔ s.read r = .error f) ∧
    (∀ old, s.read r = .ok old → s.write r old = .ok s) ∧
    ∀ s', s.write r v = .ok s' →
      s'.read r = .ok v ∧
      (∀ t q, t.address = r.address → t.path = r.path ++ q →
        (∀ u, v.select? q = some u → s'.read t = .ok u) ∧
        (v.select? q = none → s'.read t = .error (.invalidPath r.address))) ∧
      (∀ t, t.address ≠ r.address ∨ ¬ r.path <+: t.path ∧ ¬ t.path <+: r.path →
        s'.read t = s.read t) ∧
      ∀ new, s'.write r new = s.write r new := by
  refine ⟨write_ok_iff v, fun f => write_error_iff v, fun old => write_of_read, fun s' h => ?_⟩
  refine ⟨?_, fun t q ha hq => ⟨fun u hu => ?_, fun hu => ?_⟩, fun t => read_apart h, write_again h⟩
  · simpa [Value.select?] using read_inside h rfl (List.append_nil r.path).symm
  · rw [read_inside h ha hq, hu, Option.elim_some]
  · rw [read_inside h ha hq, hu, Option.elim_none]

/-- A pair of a number and of another pair, and a hole. -/
def nestedPair : Store :=
  ⟨#[some ⟨.root 0, .compound [.int 1, .compound [.int 2, .unit]]⟩, none]⟩

/-- The number in the pair gives way to a pair. -/
theorem read_write_nestedPair : ∃ s',
    nestedPair.write ⟨0, [0], false⟩ (.compound [.unit, .int 7]) = .ok s' ∧
    s'.read ⟨0, [0, 1], false⟩ = .ok (.int 7) ∧
    s'.read ⟨0, [0, 2], false⟩ = .error (.invalidPath 0) ∧
    s'.read ⟨0, [1, 0], false⟩ = .ok (.int 2) ∧
    s'.read ⟨1, [], false⟩ = .error (.danglingReference 1) ∧
    nestedPair.write ⟨0, [0], false⟩ (.int 1) = .ok nestedPair := by
  obtain ⟨hok, -, hback, hlaws⟩ := read_write nestedPair ⟨0, [0], false⟩ (.compound [.unit, .int 7])
  have hr : nestedPair.read ⟨0, [0], false⟩ = .ok (.int 1) := rfl
  obtain ⟨s', hs'⟩ := hok.2 ⟨_, hr⟩
  obtain ⟨-, hinside, hapart, -⟩ := hlaws s' hs'
  exact ⟨s', hs', (hinside ⟨0, [0, 1], false⟩ [1] rfl rfl).1 _ rfl,
    (hinside ⟨0, [0, 2], false⟩ [2] rfl rfl).2 rfl,
    (hapart ⟨0, [1, 0], false⟩ (.inr (by decide))).trans rfl,
    (hapart ⟨1, [], false⟩ (.inl (by decide))).trans rfl, hback _ hr⟩

end Store

end Ownership
