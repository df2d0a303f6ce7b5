import Mathlib.Data.List.Perm.Subperm
import Ownership.Checker.Join
import Ownership.Traced

/-!
# Environments of the checker

A fresh name is a temporary that is not bound yet (`Env.freshName_spec`): there are
more temporaries to choose from than names bound. Two environments that can be joined bind
the same names (`join_ok`): one has the names of the other, and both have equally many. So what
is known of a variable after one arm is known of it after the other one and in the join
(`joined_of_right`, `joined_of_join`).
-/

namespace Ownership

namespace NameMap

variable {α : Type} {m k : NameMap α} {n : String} {a : α}

theorem names_nodup (m : NameMap α) : m.names.Nodup := by
  rw [names, List.nodup_iff_pairwise_ne, List.pairwise_map]
  exact m.sorted.imp fun h e => absurd (e ▸ h) Std.lt_irrefl

theorem get?_isSome_iff : (∃ a, m.get? n = some a) ↔ n ∈ m.names := by
  rw [← contains_eq_true_iff, contains, Option.isSome_iff_exists]

theorem contains_eq_false_iff : m.contains n = false ↔ m.get? n = none := by
  rw [contains, Option.isSome_eq_false_iff, Option.isNone_iff_eq_none]

theorem mem_values (h : m.get? n = some a) : a ∈ m.values :=
  List.mem_map.2 ⟨(n, a), mem_entries_iff.2 h, rfl⟩

theorem mem_values_iff : a ∈ m.values ↔ ∃ n, m.get? n = some a := by
  refine ⟨fun h => ?_, fun ⟨_, h⟩ => mem_values h⟩
  obtain ⟨⟨n, a⟩, he, rfl⟩ := List.mem_map.1 h
  exact ⟨n, mem_entries_iff.1 he⟩

/-- Binding a name to what it is bound to changes nothing. -/
theorem insert_self (h : m.get? n = some a) : m.insert n a = m := by
  refine ext_get? fun k => ?_
  rw [get?_insert]
  split
  · rename_i e
    rw [e, h]
  · rfl

theorem get?_insert_some {k : String} {b : α} (h : (m.insert n a).get? k = some b) :
    k = n ∧ b = a ∨ k ≠ n ∧ m.get? k = some b := by
  rw [get?_insert] at h
  split at h
  · rename_i e
    exact .inl ⟨e, (Option.some.inj h).symm⟩
  · rename_i e
    exact .inr ⟨e, h⟩

theorem get?_eraseAll_some {ns : List String} :
    (m.eraseAll ns).get? n = some a ↔ n ∉ ns ∧ m.get? n = some a := by
  rw [get?_eraseAll]
  split
  · rename_i hn
    simp [hn]
  · rename_i hn
    simp [hn]

/-- Entries of different names are all in the map of them. -/
theorem get?_ofList {es : List (String × α)} (h : (es.map Prod.fst).Nodup) :
    (ofList es).get? n = some a ↔ (n, a) ∈ es := by
  suffices all : ∀ m : NameMap α, (∀ e ∈ es, m.get? e.1 = none) →
      ((es.foldl (fun m e => m.insert e.1 e.2) m).get? n = some a ↔
        m.get? n = some a ∨ (n, a) ∈ es) by
    simpa [ofList] using all empty fun _ _ => rfl
  induction es with
  | nil => simp
  | cons e es ih =>
    intro m hm
    rw [List.map_cons, List.nodup_cons] at h
    have hne : ∀ d ∈ es, d.1 ≠ e.1 := fun d hd he => h.1 (List.mem_map.2 ⟨d, hd, he⟩)
    rw [List.foldl_cons, ih h.2 (m.insert e.1 e.2) fun d hd => by
      rw [get?_insert, if_neg (hne d hd), hm d (List.mem_cons_of_mem _ hd)], get?_insert]
    by_cases hn : n = e.1
    · subst hn
      have hout : ∀ b, (e.1, b) ∉ es := fun b hb => hne _ hb rfl
      simp [hm e List.mem_cons_self, hout, Prod.ext_iff, eq_comm]
    · simp [hn, Prod.ext_iff]

/-- A map with the names of another one and as many entries has no other names. -/
theorem names_subset (hs : k.size ≤ m.size) (h : ∀ n ∈ m.names, n ∈ k.names) :
    ∀ n ∈ k.names, n ∈ m.names := by
  have hp : m.names.Perm k.names :=
    (m.names_nodup.subperm h).perm_of_length_le (by simpa [names, size] using hs)
  exact fun n hn => hp.mem_iff.2 hn

end NameMap

namespace Env

variable {Γ : Env} {p : Place} {T : Ty} {l : Lifetime} {x : String} {s : Slot}

theorem get?_dropLifetime :
    (Γ.dropLifetime l).get? x = some s ↔ Γ.get? x = some s ∧ s.lifetime ≠ l := by
  rw [dropLifetime, NameMap.get?_filter, Option.filter_eq_some_iff, bne_iff_ne]

/-- Only temporaries start with the text that they start with. -/
theorem ne_temporary {x : String} (h : ¬ "$tmp".toList <+: x.toList) (i : Nat) :
    x ≠ temporary i := by
  rintro rfl
  refine h ?_
  rw [temporary, String.toList_append]
  exact List.prefix_append _ _

theorem temporary_injective {i j : Nat} (h : temporary i = temporary j) : i = j :=
  number_injective ((String.append_right_inj _).1 h)

/-- **A fresh name is a temporary that is not bound.** -/
theorem freshName_spec (Γ : Env) :
    (∃ i, Γ.freshName = temporary i) ∧ Γ.get? Γ.freshName = none := by
  rw [freshName]
  cases hf : ((List.range (Γ.size + 1)).map temporary).find? fun n => !Γ.contains n with
  | some n =>
    have hn := List.mem_of_find?_eq_some hf
    have hc := List.find?_some hf
    obtain ⟨i, -, e⟩ := List.mem_map.1 hn
    refine ⟨⟨i, e.symm⟩, NameMap.contains_eq_false_iff.1 ?_⟩
    simpa using hc
  | none =>
    -- all candidates are bound, and there are more of them than names
    have hd : ((List.range (Γ.size + 1)).map temporary).Nodup := by
      rw [List.nodup_iff_pairwise_ne, List.pairwise_map]
      exact List.nodup_range.imp fun hne e => hne (temporary_injective e)
    have hsub : (List.range (Γ.size + 1)).map temporary ⊆ Γ.names := by
      intro n hn
      have := List.find?_eq_none.1 hf n hn
      exact NameMap.contains_eq_true_iff.1 (by simpa using this)
    have := (hd.subperm hsub).length_le
    simp only [List.length_map, List.length_range, NameMap.names, NameMap.size] at this
    omega

/-- No borrow in the environment prevents reading. -/
theorem not_readProhibited (h : Γ.readProhibited p = false) (hs : Γ.get? x = some s) :
    ∀ b ∈ s.ty.borrows, b.1 = true → ∀ q ∈ b.2, q.conflicts p = false := by
  intro b hb hm q hq
  rw [readProhibited, List.any_eq_false] at h
  have h := h s (NameMap.mem_values hs)
  rw [Ty.prohibitsReading, List.any_eq_true, not_exists] at h
  have h := h b
  cases hc : q.conflicts p with
  | false => rfl
  | true =>
    refine absurd ⟨hb, ?_⟩ h
    rw [hm, Bool.true_and, List.any_eq_true]
    exact ⟨q, hq, hc⟩

end Env

theorem not_prohibitsWriting {T : Ty} {p : Place} (h : T.prohibitsWriting p = false) :
    ∀ b ∈ T.borrows, ∀ q ∈ b.2, q.conflicts p = false := by
  intro b hb q hq
  rw [Ty.prohibitsWriting, List.any_eq_false] at h
  have h := h b hb
  rw [List.any_eq_true, not_exists] at h
  cases hc : q.conflicts p with
  | false => rfl
  | true => exact absurd ⟨hq, hc⟩ (h q)

theorem Env.slot_not_prohibitsWriting {Γ : Env} {p : Place} {x : String} {s : Slot}
    (h : Γ.writeProhibited p = false) (hs : Γ.get? x = some s) :
    s.ty.prohibitsWriting p = false := by
  rw [writeProhibited, List.any_eq_false] at h
  exact Bool.eq_false_iff.2 (h s (NameMap.mem_values hs))

/-- Nor writing. -/
theorem Env.not_writeProhibited {Γ : Env} {p : Place} {x : String} {s : Slot}
    (h : Γ.writeProhibited p = false) (hs : Γ.get? x = some s) :
    ∀ b ∈ s.ty.borrows, ∀ q ∈ b.2, q.conflicts p = false :=
  not_prohibitsWriting (slot_not_prohibitsWriting h hs)

/-- What a value of the type borrows lives at least as long as `l`. -/
theorem Env.within_ok {Γ : Env} {T : Ty} {l : Lifetime} (h : Γ.within T l = true) {p : Place}
    (hp : p ∈ T.borrowed) : ∃ s, Γ.get? p.name = some s ∧ l.within s.lifetime = true := by
  rw [within, List.all_eq_true] at h
  have := h p hp
  rwa [Option.any_eq_true] at this

/-- Any borrow that prevents reading prevents writing as well. -/
theorem Env.readProhibited_of_writeProhibited {Γ : Env} {p : Place}
    (h : Γ.writeProhibited p = false) : Γ.readProhibited p = false := by
  rw [writeProhibited, List.any_eq_false] at h
  rw [readProhibited, List.any_eq_false]
  intro s hs hr
  obtain ⟨b, hb, hp⟩ := List.any_eq_true.1 hr
  exact h s hs (List.any_eq_true.2 ⟨b, hb, (Bool.and_eq_true_iff.1 hp).2⟩)

/-! ### Joins -/

variable {variance : Variance} {lhs rhs out J : Env} {left right : Slot} {x : String}

/-- What is known of a variable after both arms. -/
def Joined (variance : Variance) (lhs rhs J : Env) (x : String) (left : Slot) : Prop :=
  ∃ right t, rhs.get? x = some right ∧ left.lifetime = right.lifetime ∧
    compatible variance lhs left.ty right.ty rhs = .ok true ∧ left.ty.union right.ty = some t ∧
    J.get? x = some ⟨t, left.lifetime⟩

theorem joinSlot_ok {s : Slot} (h : joinSlot variance lhs rhs x left right = .ok s) :
    left.lifetime = right.lifetime ∧ compatible variance lhs left.ty right.ty rhs = .ok true ∧
      ∃ t, left.ty.union right.ty = some t ∧ s = ⟨t, left.lifetime⟩ := by
  rw [joinSlot] at h
  by_cases hl : left.lifetime = right.lifetime
  · simp only [hl, ne_eq, not_true_eq_false, if_false, Traced.bind_eq_ok] at h
    obtain ⟨b, hb, h⟩ := h
    cases b with
    | false => cases h
    | true =>
      simp only [Bool.not_true, Bool.false_eq_true, if_false] at h
      cases hu : left.ty.union right.ty with
      | none =>
        rw [hu] at h
        cases h
      | some t =>
        rw [hu] at h
        cases h
        exact ⟨hl, hb, t, rfl, by rw [hl]⟩
  · simp only [ne_eq, hl, not_false_eq_true, if_true] at h
    cases h

theorem foldlM_join {es : List (String × Slot)} (hn : (es.map Prod.fst).Nodup)
    (h : es.foldlM (fun out (name, left) => do
      match rhs.get? name with
      | none => throw (Violation.environmentMismatch name)
      | some right => return out.insert name (← joinSlot variance lhs rhs name left right)) out =
        .ok J) :
    (∀ x, x ∉ es.map Prod.fst → J.get? x = out.get? x) ∧
      ∀ x left, (x, left) ∈ es → Joined variance lhs rhs J x left := by
  induction es generalizing out with
  | nil =>
    cases h
    exact ⟨fun _ _ => rfl, nofun⟩
  | cons e es ih =>
    obtain ⟨y, left⟩ := e
    obtain ⟨hy, hn⟩ := List.nodup_cons.1 hn
    rw [List.foldlM_cons, Traced.bind_eq_ok] at h
    obtain ⟨out', h₁, h⟩ := h
    obtain ⟨hout, hin⟩ := ih hn h
    cases hr : rhs.get? y with
    | none =>
      simp only [hr] at h₁
      cases h₁
    | some right =>
      simp only [hr, Traced.bind_eq_ok] at h₁
      obtain ⟨s, hs, e⟩ := h₁
      cases e
      obtain ⟨hl, hc, t, ht, rfl⟩ := joinSlot_ok hs
      refine ⟨fun x hx => ?_, fun x l' hm => ?_⟩
      · simp only [List.map_cons, List.mem_cons, not_or] at hx
        rw [hout x hx.2, NameMap.get?_insert, if_neg hx.1]
      · rcases List.mem_cons.1 hm with e | hm
        · cases e
          exact ⟨right, t, hr, hl, hc, ht, by rw [hout y hy, NameMap.get?_insert_self]⟩
        · exact hin x l' hm

/-- **Environments that can be joined bind the same names**, and the join has the unions of their
types. -/
theorem join_ok (h : join variance lhs rhs = .ok J) :
    (∀ x, lhs.get? x = none → J.get? x = none ∧ rhs.get? x = none) ∧
      ∀ x left, lhs.get? x = some left → Joined variance lhs rhs J x left := by
  rw [join] at h
  by_cases hs : lhs.size = rhs.size
  · simp only [hs, ne_eq, not_true_eq_false, if_false] at h
    obtain ⟨hout, hin⟩ := foldlM_join lhs.names_nodup h
    have hsub := NameMap.names_subset (m := lhs) (k := rhs) (by omega) fun n hn => by
      obtain ⟨left, hl⟩ := NameMap.get?_isSome_iff.2 hn
      obtain ⟨right, -, hr, -⟩ := hin n left (NameMap.mem_entries_iff.2 hl)
      exact NameMap.get?_isSome_iff.1 ⟨right, hr⟩
    refine ⟨fun x hx => ⟨?_, ?_⟩, fun x left hl => hin x left (NameMap.mem_entries_iff.2 hl)⟩
    · rw [hout x fun hm => ?_, hx]
      obtain ⟨a, ha⟩ := NameMap.get?_isSome_iff.2 hm
      rw [hx] at ha
      cases ha
    · cases hr : rhs.get? x with
      | none => rfl
      | some right =>
        obtain ⟨a, ha⟩ := NameMap.get?_isSome_iff.2 (hsub x (NameMap.get?_isSome_iff.1 ⟨right, hr⟩))
        rw [hx] at ha
        cases ha
  · simp only [ne_eq, hs, not_false_eq_true, if_true] at h
    cases h

/-- What is bound after the second arm is bound after the first one and in the join. -/
theorem joined_of_right (h : join variance lhs rhs = .ok J) (hr : rhs.get? x = some right) :
    ∃ left t, lhs.get? x = some left ∧ left.lifetime = right.lifetime ∧
      compatible variance lhs left.ty right.ty rhs = .ok true ∧ left.ty.union right.ty = some t ∧
      J.get? x = some ⟨t, right.lifetime⟩ := by
  obtain ⟨hnone, hsome⟩ := join_ok h
  cases hl : lhs.get? x with
  | none => cases hr.symm.trans (hnone x hl).2
  | some left =>
    obtain ⟨right', t, hr', hlife, hc, hu, hJ⟩ := hsome x left hl
    cases hr.symm.trans hr'
    exact ⟨left, t, rfl, hlife, hc, hu, by rw [hJ, hlife]⟩

/-- What is bound in the join is bound after both arms. -/
theorem joined_of_join {s : Slot} (h : join variance lhs rhs = .ok J) (hs : J.get? x = some s) :
    ∃ left right, lhs.get? x = some left ∧ rhs.get? x = some right ∧
      s.lifetime = left.lifetime ∧ s.lifetime = right.lifetime ∧
      left.ty.union right.ty = some s.ty := by
  obtain ⟨hnone, hsome⟩ := join_ok h
  cases hl : lhs.get? x with
  | none => cases hs.symm.trans (hnone x hl).1
  | some left =>
    obtain ⟨right, t, hr, hlife, -, hu, hJ⟩ := hsome x left hl
    cases hs.symm.trans hJ
    exact ⟨left, right, rfl, hr, rfl, hlife, hu⟩

theorem unbound_iff_of_join (h : join variance lhs rhs = .ok J) :
    lhs.get? x = none ↔ rhs.get? x = none := by
  refine ⟨fun hl => ((join_ok h).1 x hl).2, fun hr => ?_⟩
  cases hl : lhs.get? x with
  | none => rfl
  | some left =>
    obtain ⟨right, -, hr', -⟩ := (join_ok h).2 x left hl
    cases hr.symm.trans hr'

end Ownership
