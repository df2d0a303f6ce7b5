import Mathlib.Data.Set.Finite.Lattice
import Ownership.Proofs.Checking.Lifted

/-!
# Carrying operands is declaring them

Operands that are carried are parked one after the other, each under the first temporary that is
free. So they could as well be declared, under any names that are new: every operand is typed alike
in both environments (`Checker.simulation_lifted`), what has been parked stays as it is, and the
variables of the program end up the same.

* `Checker.Carried.run`: **operands that can be parked can be declared**, and are of the same types.
* `Checker.carry_as_declared`: what is carried has the types that it has been given, what it borrows
  stays borrowed while later operands are typed, and how the temporaries are called does not matter.
-/

namespace Ownership

open Env

variable {c : Checker} {Γ Γ₁ Γ' Δ Δ₁ Δ' : Env} {N ns ms : List String} {Ss Ts : List Ty}
variable {T U V : Ty} {l : Lifetime} {p : Place} {x n : String} {s : Slot} {m : Bool}
variable {t : Term} {ts : List Term} {P P' : Parked} {sp xs : Span}

namespace Env

/-- All variables that are bound in the environment or borrowed by some type in it. -/
def mentioned (Γ : Env) : List String :=
  Γ.names ++ Γ.values.flatMap fun s => s.ty.borrowed.map (·.name)

theorem mem_mentioned (h : Γ.get? x = some s) : x ∈ Γ.mentioned :=
  List.mem_append_left _ (NameMap.get?_isSome_iff.1 ⟨s, h⟩)

theorem name_mem_mentioned (h : Γ.get? x = some s) (hp : s.ty.Lends m p) : p.name ∈ Γ.mentioned :=
  List.mem_append_right _ (List.mem_flatMap.2 ⟨s, NameMap.mem_values h,
    List.mem_map_of_mem (Ty.mem_borrowed.2 ⟨m, hp⟩)⟩)

/-- What is borrowed by the type of a variable cannot be written, nor read if it is borrowed
uniquely. -/
theorem prohibited_of_lends (h : Γ.get? x = some s) (hp : s.ty.Lends m p) :
    Γ.writeProhibited p = true ∧ (m = true → Γ.readProhibited p = true) := by
  have hconf : p.conflicts p = true := Place.conflicts_iff.2 ⟨rfl, .inl (List.prefix_rfl)⟩
  refine ⟨List.any_eq_true.2 ⟨s, NameMap.mem_values h, Ty.prohibitsWriting_iff.2 ⟨m, p, hp, hconf⟩⟩,
    ?_⟩
  rintro rfl
  exact List.any_eq_true.2 ⟨s, NameMap.mem_values h, Ty.prohibitsReading_iff.2 ⟨p, hp, hconf⟩⟩

theorem Spare.nil : Spare N [] := ⟨List.nodup_nil, nofun, nofun⟩

/-- There are always more names to spare. -/
theorem Spare.extend (h : Spare N ns) (k : Nat) : ∃ ms, ms.length = k ∧ Spare N (ns ++ ms) := by
  let name (i : Nat) : String := String.ofList (List.replicate i 'x')
  have inj : Function.Injective name := by
    intro i j e
    simpa [name] using congrArg String.length e
  have plain : ∀ i j, name i ≠ temporary j := by
    intro i
    refine ne_temporary fun h => ?_
    have hmem := h.subset (a := '$') (by decide)
    simp [name] at hmem
  obtain ⟨S, hS, hcard⟩ := ((Set.infinite_range_of_injective inj).sdiff
    (N ++ ns).finite_toSet).exists_subset_card_eq k
  have fresh : ∀ n ∈ S.toList, (∃ i, name i = n) ∧ n ∉ N ++ ns := fun n hn =>
    hS (Finset.mem_toList.1 hn)
  refine ⟨S.toList, by rw [Finset.length_toList, hcard], ?_, fun n hn => ?_, fun n hn => ?_⟩
  · refine List.nodup_append.2 ⟨h.nodup, S.nodup_toList, ?_⟩
    rintro n hn _ hm rfl
    exact (fresh n hm).2 (List.mem_append_right _ hn)
  · rcases List.mem_append.1 hn with hn | hn
    · exact h.unparked n hn
    · obtain ⟨⟨i, rfl⟩, -⟩ := fresh n hn
      exact plain i
  · rcases List.mem_append.1 hn with hn | hn
    · exact h.apart n hn
    · exact fun hm => (fresh n hn).2 (List.mem_append_left _ hm)

namespace Lifted

/-- Before any operand is typed both environments are the same. -/
theorem nil (hN : Unparked N) (hΓ : Γ.mentioned ⊆ N) : Lifted N [] l [] Γ .unit Γ .unit where
  spare := .nil
  unparked := hN
  types := rfl
  reserved := {
    parked := fun i s hs => absurd rfl (hN _ (hΓ (mem_mentioned hs)) i)
    named := fun x s m p hs hp => hΓ (name_mem_mentioned hs hp)
    whole := rfl
    names := fun m p hp => absurd hp Ty.not_lends_unit }
  bound := fun x s hs => .inl (hΓ (mem_mentioned hs))
  slot := by
    intro x y hxy
    cases hxy with
    | same => rfl
    | later => rw [List.length_nil, Nat.zero_add]
  length := rfl
  held := nofun

/-- A name to spare is not bound. -/
theorem unbound (h : Lifted N ns l Ts Γ T Δ U) (hs : Spare N (ns ++ [n])) : Δ.get? n = none := by
  have ht := hs.unparked n (by simp)
  rw [h.slot n n (.same hs.last_notMem ht)]
  exact h.bound.unbound (hs.apart n (by simp)) ht

/-- **One more operand** is parked under the next temporary, and declared under the next name. -/
theorem declare (h : Lifted N ns l Ts Γ T Δ T) (hs : Spare N (ns ++ [n]))
    (hlast : ∀ i, ns.length ≤ i → Γ.get? (temporary i) = none) :
    Lifted N (ns ++ [n]) l (Ts ++ [T]) (Γ.insert (temporary ns.length) ⟨T, l.global⟩) .unit
      (Δ.insert n ⟨T, l⟩) .unit where
  spare := hs
  unparked := h.unparked
  types := rfl
  reserved := h.reserved.insert _ _
  bound := by
    intro x s hx
    rcases NameMap.get?_insert_some hx with ⟨rfl, -⟩ | ⟨-, hx⟩
    · exact .inr ⟨_, rfl⟩
    · exact h.bound x s hx
  slot := by
    intro x y hxy
    have hy : y ≠ n := fun e => hxy.notMem hs (e ▸ by simp)
    rw [NameMap.get?_insert, if_neg hy, NameMap.get?_insert]
    cases hxy with
    | same hx ht =>
      rw [if_neg (ht _)]
      exact h.slot _ _ (.same (fun hm => hx (List.mem_append_left _ hm)) ht)
    | @later j =>
      have hlen : (ns ++ [n]).length + j = ns.length + (1 + j) := by simp; omega
      have hne : temporary (ns.length + (1 + j)) ≠ temporary ns.length := by
        intro e
        have := temporary_injective e
        omega
      rw [hlen, if_neg hne, h.slot _ _ .later, hlast _ (by omega), hlast _ (by omega)]
  length := by simp [h.length]
  held := by
    intro i k V hk hT
    rcases Nat.lt_trichotomy i ns.length with hi | rfl | hi
    · rw [List.getElem?_append_left hi] at hk
      rw [List.getElem?_append_left (h.length ▸ hi)] at hT
      have hne : temporary i ≠ temporary ns.length := fun e => hi.ne (temporary_injective e)
      have hkn : k ≠ n := fun e => hs.last_notMem (e ▸ List.mem_of_getElem? hk)
      rw [NameMap.get?_insert, if_neg hne, NameMap.get?_insert, if_neg hkn]
      exact h.held i k V hk hT
    · rw [List.getElem?_concat_length] at hk
      rw [← h.length, List.getElem?_concat_length] at hT
      cases hk
      cases hT
      exact ⟨NameMap.get?_insert_self .., NameMap.get?_insert_self ..⟩
    · rw [List.getElem?_eq_none (by simp; omega)] at hk
      cases hk

end Lifted

end Env

/-- The statements `let mut n₁ = t₁; …; let mut nₖ = tₖ`. -/
def Term.lets (sp xs : Span) (ns : List String) (ts : List Term) : List Term :=
  List.zipWith (fun n t => .letMut sp n xs t) ns ts

namespace Checker

/-- **The operands so far** are parked under the first temporaries, and declared under `ns`. -/
structure Carried (N ns : List String) (l : Lifetime) (Ts : List Ty) (P : Parked) (Δ : Env) :
    Prop where
  lifted : Lifted N ns l Ts P.env .unit Δ .unit
  names : P.names = (List.range ns.length).map temporary
  last : ∀ i, ns.length ≤ i → P.env.get? (temporary i) = none

namespace Carried

theorem nil (hN : Unparked N) (hΓ : Γ.mentioned ⊆ N) : Carried N [] l [] ⟨Γ, []⟩ Γ where
  lifted := .nil hN hΓ
  names := rfl
  last := by
    intro i _
    cases hs : Γ.get? (temporary i) with
    | none => rfl
    | some s => exact absurd rfl (hN _ (hΓ (mem_mentioned hs)) i)

/-- **An operand that is typed where the earlier ones are parked** is typed where they are declared,
with the same type. -/
theorem step (sp xs : Span) (h : Carried N ns l Ts P Δ) (hs : Spare N (ns ++ [n]))
    (ht : t.Outside N l) (hr : (c.apply P.env l t).result = .ok (Γ₁, T)) :
    ∃ Δ₁, (c.apply Δ l (.letMut sp n xs t)).result = .ok (Δ₁, .unit) ∧
      Carried N (ns ++ [n]) l (Ts ++ [T]) (Parked.park l P.names (Γ₁, T)) Δ₁ := by
  obtain ⟨f, hf⟩ := exists_renames ns
  obtain ⟨Δ₁, U, hΔ₁, h₁⟩ := (simulation_lifted (c := c) hf).apply t h.lifted
    (fun b hb => hb.outside ht) hr
  have hid : t.rename f = t := (Term.rename_congr (g := id) fun x hx =>
    hf.variable h.lifted.spare h.lifted.unparked (ht.names hx)).trans (Term.rename_id t)
  rw [hid] at hΔ₁
  cases h₁.types
  -- no temporary is left behind by the operand
  have hlast : ∀ i, ns.length ≤ i → Γ₁.get? (temporary i) = none := by
    intro i hi
    cases hs₁ : Γ₁.get? (temporary i) with
    | none => rfl
    | some s =>
      rcases (continues_apply t hr).origin _ s hs₁ with ⟨s', hs', -⟩ | ⟨hm, -⟩
      · cases (h.last i hi).symm.trans hs'
      · exact absurd (ht.names (t.declares_subset_names hm)) (h.lifted.temporary_notMem i)
  have hfresh : Γ₁.freshName = temporary ns.length := by
    refine freshName_eq (NameMap.contains_eq_false_iff.2 (hlast _ le_rfl)) fun j hj => ?_
    obtain ⟨V, -, hV, -⟩ := h₁.exists_held (List.getElem?_eq_getElem hj)
    rw [NameMap.contains, hV]
    rfl
  refine ⟨_, apply_of_letMut (NameMap.contains_eq_false_iff.2 (h.lifted.unbound hs)) hΔ₁, ?_⟩
  rw [Parked.park, hfresh]
  exact {
    lifted := h₁.declare hs hlast
    names := by simp [h.names, List.range_succ]
    last := by
      intro i hi
      rw [List.length_append, List.length_singleton] at hi
      rw [NameMap.get?_insert, if_neg fun e => by have := temporary_injective e; omega]
      exact hlast i (by omega) }

/-- **Operands that can be parked can be declared.** -/
theorem run (sp xs : Span) (h : Carried N ms l Ss P Δ) (hs : Spare N (ms ++ ns))
    (hts : ∀ t ∈ ts, t.Outside N l) (hlen : ns.length = ts.length)
    (hr : (c.park l P ts).result = .ok P') :
    ∃ Ts Δ', (c.sequence Δ l .unit (Term.lets sp xs ns ts)).result = .ok (Δ', .unit) ∧
      Carried N (ms ++ ns) l (Ss ++ Ts) P' Δ' := by
  induction ts generalizing ms ns Ss P Δ with
  | nil =>
    cases List.length_eq_zero_iff.1 hlen
    cases park_nil hr
    exact ⟨[], Δ, sequence_of_nil, by simpa using h⟩
  | cons t ts ih =>
    obtain ⟨n, ns, rfl⟩ := List.exists_cons_of_length_eq_add_one hlen
    obtain ⟨⟨Γ₁, T⟩, h₁, hr⟩ := park_cons hr
    rw [List.append_cons] at hs
    obtain ⟨Δ₁, hΔ₁, hcarried⟩ := h.step sp xs hs.left (hts t List.mem_cons_self) h₁
    obtain ⟨Ts, Δ', hΔ', hcarried'⟩ := ih hcarried hs
      (fun t ht => hts t (List.mem_cons_of_mem _ ht)) (Nat.succ.inj hlen) hr
    refine ⟨T :: Ts, Δ', ?_, by simpa using hcarried'⟩
    rw [Term.lets, List.zipWith_cons_cons, sequence_of_cons hΔ₁]
    exact hΔ'

/-- What has been parked, and what has been declared, has the types of the operands. -/
theorem types (h : Carried N ns l Ts P Δ) :
    P.names.map (fun n => (P.env.get? n).map (·.ty)) = Ts.map some ∧
      ns.map (fun n => (Δ.get? n).map (·.ty)) = Ts.map some := by
  have each : ∀ i : Nat, (P.names[i]?.map fun n => (P.env.get? n).map (·.ty)) = Ts[i]?.map some ∧
      (ns[i]?.map fun n => (Δ.get? n).map (·.ty)) = Ts[i]?.map some := by
    intro i
    cases hn : ns[i]? with
    | none =>
      have hle := List.getElem?_eq_none_iff.1 hn
      have hT : Ts[i]? = none := List.getElem?_eq_none (h.lifted.length ▸ hle)
      simp [h.names, hle, hT]
    | some n =>
      obtain ⟨V, hT, hΓ, hΔ⟩ := h.lifted.exists_held hn
      have hi := (List.getElem?_eq_some_iff.1 hn).1
      simp [h.names, hi, hT, hΓ, hΔ]
  constructor
  · refine List.ext_getElem? fun i => ?_
    rw [List.getElem?_map, List.getElem?_map, (each i).1]
  · refine List.ext_getElem? fun i => ?_
    rw [List.getElem?_map, List.getElem?_map, (each i).2]

/-- **The operands are given back with their types**, and what is left are the variables that have
not been declared in their stead. -/
theorem release (h : Carried N ns l Ts P Δ) : P.release = (Δ.eraseAll ns, Ts) := by
  have hname : ∀ {y}, (∀ i, y ≠ temporary i) → y ∉ P.names := by
    intro y ht hm
    rw [h.names] at hm
    obtain ⟨i, -, rfl⟩ := List.mem_map.1 hm
    exact ht i rfl
  refine Prod.ext (NameMap.ext_get? fun y => ?_) ?_
  · rw [Parked.release, NameMap.get?_eraseAll, NameMap.get?_eraseAll]
    by_cases hy : y ∈ ns
    · -- the name is bound in neither of the environments
      have ht := h.lifted.spare.unparked y hy
      rw [if_pos hy, if_neg (hname ht), h.lifted.bound.unbound (h.lifted.spare.apart y hy) ht]
    · rw [if_neg hy]
      obtain ⟨x, hxy⟩ := exists_standsFor hy
      rw [h.lifted.slot x y hxy]
      cases hxy with
      | same hx ht => rw [if_neg (hname ht)]
      | @later j =>
        rw [h.last _ (Nat.le_add_right _ j)]
        split
        · rfl
        · rename_i hm
          refine h.last j (not_lt.1 fun hj => hm ?_)
          rw [h.names]
          exact List.mem_map_of_mem (List.mem_range.2 hj)
  · have hid := congrArg (List.filterMap id) h.types.1
    rw [Parked.release]
    simpa [List.filterMap_map, Function.comp_def] using hid

/-- What an operand has borrowed is kept from the later ones. -/
theorem prohibited (h : Carried N ns l Ts P Δ) (hU : U ∈ Ts) (hp : U.Lends m p) :
    P.env.writeProhibited p = true ∧ (m = true → P.env.readProhibited p = true) := by
  obtain ⟨i, hi⟩ := List.mem_iff_getElem?.1 hU
  have hlt : i < ns.length := h.lifted.length ▸ (List.getElem?_eq_some_iff.1 hi).1
  exact prohibited_of_lends (h.lifted.held i _ U (List.getElem?_eq_getElem hlt) hi).1 hp

end Carried

/-- **Each operand is typed where the earlier ones are parked**, and given back with its type. -/
theorem carried_operand {ss us : List Term} (start : Carried N [] l [] P Δ)
    (hts : ∀ u ∈ ss ++ t :: us, u.Outside N l) (hr : (c.park l P (ss ++ t :: us)).result = .ok P') :
    ∃ P₁ Δ₁ ns Ss Γ₁ T Us, (c.park l P ss).result = .ok P₁ ∧ Carried N ns l Ss P₁ Δ₁ ∧
      Ss.length = ss.length ∧ (c.apply P₁.env l t).result = .ok (Γ₁, T) ∧
      P'.release.2 = Ss ++ T :: Us := by
  obtain ⟨P₁, h₁, hr⟩ := park_prefix hr
  obtain ⟨⟨Γ₁, T⟩, ht, hr⟩ := park_cons hr
  -- the names do not matter, so take some
  obtain ⟨ns, hns, hs⟩ := (Spare.nil (N := N)).extend ss.length
  obtain ⟨Ss, Δ₁, -, before⟩ := start.run {} {} hs
    (fun u hu => hts u (List.mem_append_left _ hu)) hns h₁
  obtain ⟨ks, hks, hs⟩ := hs.extend 1
  obtain ⟨n, rfl⟩ := List.length_eq_one_iff.1 hks
  obtain ⟨Δ₂, -, after⟩ := before.step {} {} hs (hts t (by simp)) ht
  obtain ⟨qs, hqs, hs⟩ := hs.extend us.length
  obtain ⟨Us, Δ₃, -, last⟩ := after.run {} {} hs (fun u hu => hts u (by simp [hu])) hqs hr
  refine ⟨P₁, Δ₁, ns, Ss, Γ₁, T, Us, h₁, before, before.lifted.length.trans hns, ht, ?_⟩
  rw [last.release]
  simp

/-- **Carrying operands keeps earlier ones in force and gives them back unchanged.** Let no variable
that is bound, borrowed or named in an operand be called like a temporary, and let the blocks of the
operands have other lifetimes than the one that they are typed under and its root. Then what is
carried has the types that the operands have been given where the earlier ones are parked, and there
what these borrow cannot be written, nor read if it is borrowed uniquely. The operands could be
declared under any names that are new instead: these get the same types, and all other variables end
up the same. -/
theorem carry_as_declared (c : Checker) (Γ Γ' : Env) (l : Lifetime) (ts : List Term) (Ts : List Ty)
    (hplain : ∀ x ∈ Γ.mentioned ++ Term.allNames ts, ¬ "$tmp".toList <+: x.toList)
    (hown : l ∉ Term.allLifetimes ts) (hroot : l.global ∉ Term.allLifetimes ts)
    (h : (c.carry Γ l ts).result = .ok (Γ', Ts)) :
    Ts.length = ts.length ∧
    (∀ ss t us, ts = ss ++ t :: us → ∃ P Γ₁ T,
      (c.park l ⟨Γ, []⟩ ss).result = .ok P ∧ (c.apply P.env l t).result = .ok (Γ₁, T) ∧
      Ts[ss.length]? = some T ∧
      ∀ U ∈ Ts.take ss.length, ∀ m p, U.Lends m p →
        P.env.writeProhibited p = true ∧ (m = true → P.env.readProhibited p = true)) ∧
    ∀ sp xs ns, ns.length = ts.length → ns.Nodup →
      (∀ n ∈ ns, ¬ "$tmp".toList <+: n.toList ∧ n ∉ Γ.mentioned ++ Term.allNames ts) →
      ∃ Δ, (c.sequence Γ l .unit (Term.lets sp xs ns ts)).result = .ok (Δ, .unit) ∧
        Δ.eraseAll ns = Γ' ∧ ns.map (fun n => (Δ.get? n).map (·.ty)) = Ts.map some := by
  have hN : Unparked (Γ.mentioned ++ Term.allNames ts) := fun x hx => ne_temporary (hplain x hx)
  have hts : ∀ t ∈ ts, t.Outside (Γ.mentioned ++ Term.allNames ts) l := fun t ht => {
    names := fun x hx => List.mem_append_right _ (Term.mem_allNames.2 ⟨t, ht, hx⟩)
    own := fun hm => hown (Term.mem_allLifetimes.2 ⟨t, ht, hm⟩)
    root := fun hm => hroot (Term.mem_allLifetimes.2 ⟨t, ht, hm⟩) }
  have start : Carried (Γ.mentioned ++ Term.allNames ts) [] l [] ⟨Γ, []⟩ Γ :=
    .nil hN (List.subset_append_left ..)
  obtain ⟨P, hP, hrel⟩ : ∃ P, (c.park l ⟨Γ, []⟩ ts).result = .ok P ∧ P.release = (Γ', Ts) := by
    simp only [carry, Traced.result_bind_ok] at h
    obtain ⟨P, hP, e⟩ := h
    exact ⟨P, hP, Except.ok.inj e⟩
  refine ⟨?_, ?_, fun sp xs ns hlen hnodup hns => ?_⟩
  · obtain ⟨ns, hlen, hs⟩ := (Spare.nil (N := Γ.mentioned ++ Term.allNames ts)).extend ts.length
    obtain ⟨Us, Δ, -, hcarried⟩ := start.run {} {} hs hts hlen hP
    cases hrel.symm.trans hcarried.release
    exact hcarried.lifted.length.trans hlen
  · rintro ss t us rfl
    obtain ⟨P₁, Δ₁, ns, Ss, Γ₁, T, Us, h₁, hcarried, hlen, ht, htypes⟩ :=
      carried_operand start hts hP
    obtain rfl : Ts = Ss ++ T :: Us := (congrArg Prod.snd hrel).symm.trans htypes
    refine ⟨P₁, Γ₁, T, h₁, ht, by rw [← hlen]; simp, fun U hU m p hp => hcarried.prohibited ?_ hp⟩
    rwa [← hlen, List.take_left] at hU
  · have hs : Spare (Γ.mentioned ++ Term.allNames ts) ns :=
      ⟨hnodup, fun n hn => ne_temporary (hns n hn).1, fun n hn => (hns n hn).2⟩
    obtain ⟨Us, Δ, hΔ, hcarried⟩ := start.run sp xs hs hts hlen hP
    cases hrel.symm.trans hcarried.release
    exact ⟨Δ, hΔ, rfl, hcarried.types.2⟩

/-- `&mut x`, `(1, b)` and `if 1 == 2 { let mut z = 3; z } else 4`: the second operand parks the
parts of a pair, the third one parks the sides of a comparison. -/
def lendThenPair : List Term :=
  [.borrow {} true (.var "x"),
    .ext {} 30 [.value {} (.int 1), .access {} .inferred (.var "b")],
    .ext {} 40 [.value {} (.int 1), .value {} (.int 2),
      .block {} (.inside 2 (.inside 1 (.root 0))) [.letMut {} "z" {} (.value {} (.int 3)),
        .access {} .inferred (.var "z")],
      .value {} (.int 4)]]

/-- The variables that are bound before and after `lendThenPair`, where `T` is the type of `b`. -/
def aroundPair (T : Ty) : Env := .declaring (.inside 1 (.root 0)) [("b", T), ("x", .int)]

theorem carry_as_declared_lendThenPair :
    (∀ x ∈ (aroundPair (.box .int)).mentioned ++ Term.allNames lendThenPair,
      ¬ "$tmp".toList <+: x.toList) ∧
    Lifetime.inside 1 (.root 0) ∉ Term.allLifetimes lendThenPair ∧
    (Lifetime.inside 1 (.root 0)).global ∉ Term.allLifetimes lendThenPair ∧
    (Checker.carry { extensions := Extension.all } (aroundPair (.box .int)) (.inside 1 (.root 0))
      lendThenPair).result = .ok (aroundPair (.shadow (.box .int)),
        [.borrowOf true (.var "x"), .compound [.int, .box .int], .int]) ∧
    (∃ P, (Checker.park { extensions := Extension.all } (.inside 1 (.root 0))
        ⟨aroundPair (.box .int), []⟩ (lendThenPair.take 1)).result = .ok P ∧
      P.env.writeProhibited (.var "x") = true ∧ P.env.readProhibited (.var "x") = true) ∧
    ∃ Δ, (Checker.sequence { extensions := Extension.all } (aroundPair (.box .int))
      (.inside 1 (.root 0)) .unit (Term.lets {} {} ["u", "v", "w"] lendThenPair)).result =
        .ok (Δ, .unit) ∧
      Δ.eraseAll ["u", "v", "w"] = aroundPair (.shadow (.box .int)) ∧
      ["u", "v", "w"].map (fun n => (Δ.get? n).map (·.ty)) =
        [some (.borrowOf true (.var "x")), some (.compound [.int, .box .int]), some .int] := by
  have hplain : ∀ x ∈ (aroundPair (.box .int)).mentioned ++ Term.allNames lendThenPair,
      ¬ "$tmp".toList <+: x.toList := by decide
  have hown : Lifetime.inside 1 (.root 0) ∉ Term.allLifetimes lendThenPair := by decide
  have hroot : (Lifetime.inside 1 (.root 0)).global ∉ Term.allLifetimes lendThenPair := by decide
  have h : (Checker.carry { extensions := Extension.all } (aroundPair (.box .int))
      (.inside 1 (.root 0)) lendThenPair).result = .ok (aroundPair (.shadow (.box .int)),
        [.borrowOf true (.var "x"), .compound [.int, .box .int], .int]) := rfl
  obtain ⟨-, inForce, declared⟩ := carry_as_declared { extensions := Extension.all } _ _ _ _ _
    hplain hown hroot h
  obtain ⟨P, -, -, hP, -, -, kept⟩ := inForce (lendThenPair.take 1) _ _ rfl
  obtain ⟨hwrite, hread⟩ := kept (.borrowOf true (.var "x")) List.mem_cons_self true (.var "x")
    (Ty.lends_borrowOf.2 ⟨rfl, rfl⟩)
  exact ⟨hplain, hown, hroot, h, ⟨P, hP, hwrite, hread rfl⟩,
    declared {} {} ["u", "v", "w"] rfl (by decide) (by decide)⟩

end Checker

end Ownership
