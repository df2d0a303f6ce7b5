import Mathlib.Logic.Equiv.Basic
import Ownership.Proofs.Checking.Counterparts
import Ownership.Proofs.Checking.Renamed
import Ownership.Proofs.Checking.Variances

/-!
# The order of names

The targets of a borrow are kept in the order of their names. The first of them stands for the
others when types are compared, and a write comes to them in that order. None of this matters where
shapes decide (`Checker.Settled`): a program with other names is accepted with the renamed type.

* `Checker.accepts_renamed`: **programs that differ in their names are accepted alike**, if shapes
  decide what is compared on the way.
* `Checker.accepts_renamed_rearranged`: a program whose verdict depends on a name.
-/

namespace Ownership

open Relation

variable {c : Checker} {g : Equiv.Perm String} {σ σ₁ σ₂ : String → Shape} {Γ Γ₁ Γ₂ Γ' : Env}
variable {T T₁ T₂ U : Ty} {p : Place} {k : AccessKind} {m : Bool} {N : List String} {b b' : Site}

/-! ### Permutations of names -/

/-- **A renaming of a program is a permutation of all names**, and leaves those alone that neither
the program nor the renamed one has. -/
theorem exists_perm {f : String → String} {K : String → Prop}
    (hinj : ∀ x ∈ N, ∀ y ∈ N, f x = f y → x = y) (hK : ∀ x ∈ N, ¬ K x ∧ ¬ K (f x)) :
    ∃ g : Equiv.Perm String, (∀ x ∈ N, g x = f x) ∧ ∀ x, K x → g x = x := by
  induction N with
  | nil => exact ⟨.refl _, nofun, fun _ _ => rfl⟩
  | cons x N ih =>
    obtain ⟨g, hg, hgK⟩ := ih (fun y hy z hz => hinj y (List.mem_cons_of_mem _ hy) z
      (List.mem_cons_of_mem _ hz)) fun y hy => hK y (List.mem_cons_of_mem _ hy)
    by_cases hx : x ∈ N
    · exact ⟨g, List.forall_mem_cons.2 ⟨hg x hx, hg⟩, hgK⟩
    -- the name that `g` has for `x` is swapped with the one that it should have
    refine ⟨g.trans (Equiv.swap (g x) (f x)), List.forall_mem_cons.2 ⟨?_, fun y hy => ?_⟩,
      fun y hy => ?_⟩
    · rw [Equiv.trans_apply, Equiv.swap_apply_left]
    · have hxy : y ≠ x := fun e => hx (e ▸ hy)
      rw [Equiv.trans_apply, Equiv.swap_apply_of_ne_of_ne (g.injective.ne hxy) ?_, hg y hy]
      rw [hg y hy]
      exact fun e => hxy (hinj y (List.mem_cons_of_mem _ hy) x List.mem_cons_self e)
    · obtain ⟨hKx, hKf⟩ := hK x List.mem_cons_self
      have hne : g y ≠ g x := g.injective.ne fun e => hKx (e ▸ hy)
      rw [Equiv.trans_apply, Equiv.swap_apply_of_ne_of_ne hne (by
        rw [hgK y hy]
        exact fun e => hKf (e ▸ hy)), hgK y hy]

namespace Checker

/-! ### Rules -/

/-- **A renamed place is read alike.** -/
theorem read_rename (g : Equiv.Perm String) (h : c.read Γ k p = .ok (Γ', T)) :
    c.read (Γ.rename g) k (p.rename g) = .ok (Γ'.rename g, T.rename g) := by
  obtain ⟨s, hs, ha, ht, hcase⟩ := read_eq_ok.1 h
  have hcopies : ∀ {b}, c.copies k p T = .ok b → c.copies k (p.rename g) (T.rename g) = .ok b := by
    intro b hb
    cases k with
    | copy =>
      simp only [copies, Ty.copyable_rename] at hb ⊢
      split at hb
      · rename_i hT
        rw [if_pos hT, hb]
      · cases hb
    | move => exact hb
    | inferred => simpa only [copies, Ty.copyable_rename] using hb
  refine read_eq_ok.2 ⟨_, Env.slot_rename g hs, (Env.availability_rename ..).trans ha,
    Env.typeOf_rename g ht, ?_⟩
  rcases hcase with ⟨hc, hr, rfl⟩ | ⟨hc, hav, hw, u, hf, rfl⟩
  · exact .inl ⟨hcopies hc, (Env.readProhibited_rename ..).trans hr, rfl⟩
  · refine .inr ⟨hcopies hc, (Env.availability_rename ..).trans hav,
      (Env.writeProhibited_rename ..).trans hw, u.rename g, ?_, ?_⟩
    · rw [Slot.follow_rename, hf, Walk.rename]
    · rw [Env.rename_insert, Ty.replaceAt_rename]
      rfl

theorem borrow_rename (g : Equiv.Perm String) (h : borrow Γ m p = .ok T) :
    borrow (Γ.rename g) m (p.rename g) = .ok (T.rename g) := by
  obtain ⟨⟨s, hs⟩, ha, hw, hr, rfl⟩ := borrow_eq_ok.1 h
  exact borrow_eq_ok.2 ⟨⟨_, Env.slot_rename g hs⟩, (Env.availability_rename ..).trans ha,
    fun hm => ⟨(Env.availability_rename ..).trans (hw hm).1,
      (Env.writeProhibited_rename ..).trans (hw hm).2⟩,
    fun hm => (Env.readProhibited_rename ..).trans (hr hm), Ty.rename_borrowOf ..⟩

theorem assign_rename (g : Equiv.Perm String) (hv : c.variance = .covariant) (ha : Γ.Apart p)
    (hd : T.defined = true) (h₁ : Kept LentTyped σ Γ T) (h₂ : Kept LentTyped σ Γ' T)
    (h : c.assign Γ p T = .ok Γ') :
    c.assign (Γ.rename g) (p.rename g) (T.rename g) = .ok (Γ'.rename g) := by
  obtain ⟨hav, hw, hT, hwrite⟩ := assign_eq_ok.1 h
  rw [hv] at hwrite
  refine assign_eq_ok.2 ⟨(Env.availability_rename ..).trans hav,
    (Env.writeProhibited_rename ..).trans hw,
    (Ty.prohibitsWriting_rename g.injective ..).trans hT, ?_⟩
  rw [hv]
  exact write_rename g ha hd h₁ h₂ hwrite

theorem merge_rename (g : Equiv.Perm String) (hv : c.variance = .covariant)
    (h₁ : Kept LentTyped σ₁ Γ₁ T₁) (h₂ : Kept LentTyped σ₂ Γ₂ T₂)
    (h : c.merge (Γ₁, T₁) (Γ₂, T₂) = .ok (Γ', T)) :
    c.merge (Γ₁.rename g, T₁.rename g) (Γ₂.rename g, T₂.rename g) =
      .ok (Γ'.rename g, T.rename g) := by
  obtain ⟨hc, hj, hu⟩ := merge_eq_ok.1 h
  rw [hv] at hc hj
  refine merge_eq_ok.2 ⟨?_, ?_, by rw [Ty.union_rename, hu, Option.map_some]⟩
  · rw [hv]
    exact compatible_rename g h₁ h₂ hc
  · rw [hv]
    exact join_rename g h₁ h₂ hj

/-! ### Sites -/

/-- **Shapes decide at the site.** What is compared in a conditional has shapes, and types for all
that is borrowed, and so has an environment before a write and after it. The ways of a write end
apart from where they pass. -/
structure Settled (c : Checker) (a : Site) : Prop where
  sides : ∀ x y, c.Compares a x y →
    ∃ σ₁ σ₂, Kept LentTyped σ₁ x.1 x.2 ∧ Kept LentTyped σ₂ y.1 y.2
  writes : ∀ sp p t Γ T Γ', a.term = .assign sp p t →
    (c.apply a.env a.lifetime t).result = .ok (Γ, T) → c.assign Γ p T = .ok Γ' →
    Γ.Apart p ∧ ∃ σ, Kept LentTyped σ Γ T ∧ Kept LentTyped σ Γ' T

/-- **A test for sites** of programs whose variables are integers, those of `N`, and borrows of
them: an environment in which types are compared is not left while one is written. -/
def level (c : Checker) (N : List String) (a : Site) : Bool :=
  match a.term with
  | .assign _ p source =>
    (c.apply a.env a.lifetime source).result.toOption.all fun judged =>
      judged.1.level N && judged.2.level N &&
        (c.assign judged.1 p judged.2).toOption.all fun Γ => Γ.level N
  | .ext _ _ [lhs, rhs, onTrue, onFalse] =>
    (c.apply a.env a.lifetime lhs).result.toOption.all fun left =>
      let parked := Parked.park a.lifetime [] left
      (c.apply parked.env a.lifetime rhs).result.toOption.all fun right =>
        let found := (Parked.park a.lifetime parked.names right).release
        found.1.level N && found.2.all (Ty.level N) && [onTrue, onFalse].all fun arm =>
          (c.apply found.1 a.lifetime arm).result.toOption.all fun x => x.1.level N && x.2.level N
  | _ => true

theorem Settled.of_level (h : c.level N b = true) : c.Settled b := by
  obtain ⟨Γ, l, t⟩ := b
  refine ⟨fun x y hxy => ?_, fun sp p t Γ₁ T Γ' e hr hw => ?_⟩
  · cases hxy with
    | operands hform ho =>
      obtain ⟨left, right, hl, hr, hrel⟩ := ho
      simp only [level, hl, hr, ← hrel, Except.toOption, Option.all_some, Bool.and_eq_true,
        List.all_cons] at h
      exact ⟨_, _, .of_level h.1.1 h.1.2.1, .of_level h.1.1 h.1.2.2.1⟩
    | arms hform ho htt hff =>
      obtain ⟨left, right, hl, hr, hrel⟩ := ho
      simp only [level, hl, hr, ← hrel, htt, hff, Except.toOption, Option.all_some,
        Bool.and_eq_true, List.all_cons] at h
      exact ⟨_, _, .of_level h.2.1.1 h.2.1.2, .of_level h.2.2.1.1 h.2.2.1.2⟩
  · cases e
    simp only [level, hr, hw, Except.toOption, Option.all_some, Bool.and_eq_true] at h
    have hkept : Kept LentTyped (Shape.level N) Γ₁ T := .of_level h.1.1 h.1.2
    obtain ⟨s, hadmits⟩ := admits_of_write (assign_ok hw).2.2
    obtain ⟨current, ht, -⟩ := hadmits.compatible
    exact ⟨hkept.shaped.apart_of_linear Shape.linear_level (hkept.shaped.typeOf ht).ne_misfit, _,
      hkept, .of_level h.2 h.1.2⟩

/-- The second checker has found the same with other names. -/
def Renamed (g : Equiv.Perm String) (N : List String) : Pairing := fun Γ T Δ U =>
  Δ = Γ.rename g ∧ U = T.rename g ∧ Env.Reserved N Γ T

/-- **No rule tells names apart** where shapes decide. -/
theorem simulation_renaming (hv : c.variance = .covariant)
    (hg : ∀ i, g (Env.temporary i) = Env.temporary i) (hN : Env.Unparked N) :
    Simulation c c g (fun b => b.term.names ⊆ N ∧ c.Settled b) (Renamed g N) where
  forms := rfl
  forget := by
    rintro Γ T Δ U ⟨rfl, -, h⟩
    exact ⟨rfl, rfl, h.unit⟩
  int := by
    rintro Γ Δ ⟨rfl, -, h⟩
    exact ⟨rfl, rfl, h.int⟩
  box := by
    rintro Γ T Δ U ⟨rfl, rfl, h⟩
    exact ⟨rfl, rfl, h.box⟩
  contains := by
    rintro Γ Δ l t x - - ⟨rfl, -⟩
    exact Env.contains_rename g Γ x
  fresh := by
    rintro Γ T Δ U ⟨rfl, -⟩
    obtain ⟨⟨i, hi⟩, -⟩ := Env.freshName_spec Γ
    rw [Env.freshName_rename hg, hi, hg]
  read := by
    rintro Γ Γ' Δ T l sp k p ⟨hsub, -⟩ ⟨rfl, -, h⟩ hr
    exact ⟨_, _, read_rename g hr, rfl, rfl, h.read hN (hsub List.mem_cons_self) hr⟩
  borrow := by
    rintro Γ Δ T l sp m p ⟨hsub, -⟩ ⟨rfl, -, h⟩ hb
    obtain ⟨-, -, -, -, rfl⟩ := borrow_eq_ok.1 hb
    exact ⟨_, borrow_rename g hb, rfl, rfl, h.borrowOf (hsub List.mem_cons_self)⟩
  bind := by
    rintro Γ Γ₁ Δ₁ T U l sp x xs t - ⟨rfl, rfl, h⟩
    exact ⟨(Env.rename_insert ..).symm, rfl, h.insert x l⟩
  hold := by
    rintro Γ T Δ U ⟨rfl, rfl, h⟩ l
    exact ⟨(Env.rename_insert ..).symm, rfl, h.insert _ l⟩
  assign := by
    rintro Γ Γ₁ Γ' Δ₁ T U l sp p t ⟨hsub, hok⟩ hr ⟨rfl, rfl, h⟩ ha
    obtain ⟨hapart, σ, h₁, h₂⟩ := hok.writes sp p t _ _ _ rfl hr ha
    exact ⟨_, assign_rename g hv hapart h.whole h₁ h₂ ha, rfl, rfl,
      h.write hN (hsub List.mem_cons_self) (assign_ok ha).2.2⟩
  within := by
    rintro Γ T Δ U l ⟨rfl, rfl, -⟩ hw
    exact (Env.within_rename ..).trans hw
  leave := by
    rintro Γ Γ₁ Δ₁ T U l sp inner ts - ⟨rfl, rfl, h⟩
    exact ⟨(Env.rename_dropLifetime ..).symm, rfl,
      h.sub fun x s hs => (Env.get?_dropLifetime.1 hs).1⟩
  release := by
    rintro Γ Δ K ⟨rfl, -, h⟩ hK
    refine ⟨(Env.rename_eraseAll ..).symm, ?_, h.release fun n hn => (hK n hn).temporary⟩
    rw [Ty.rename_compound, List.map_filterMap, List.filterMap_map]
    refine congrArg Ty.compound (List.filterMap_congr fun n _ => ?_)
    rw [Function.comp_apply, Env.get?_rename, Option.map_map, Option.map_map]
    rfl
  comparable := by
    rintro Γ Γ₁ Δ₁ l sp o e lhs rhs onTrue onFalse Ts Us ⟨-, hok⟩ hform ho ⟨rfl, hU, -⟩ hc
    rw [Ty.rename_compound, Ty.compound.injEq] at hU
    subst hU
    unfold Checker.comparable at hc ⊢
    match Ts with
    | [T, U] =>
      obtain ⟨σ₁, σ₂, h₁, h₂⟩ := hok.sides _ _ (.operands hform ho)
      rw [expect_eq_ok, hv] at hc
      rw [List.map_cons, List.map_cons, List.map_nil, expect_eq_ok, hv]
      exact compatible_rename g h₁ h₂ hc
    | [] | [_] | _ :: _ :: _ :: _ => rfl
  merge := by
    rintro Γ Γ₁ Γ' T l sp o e lhs rhs onTrue onFalse Ts ⟨Γl, Tl⟩ ⟨Γr, Tr⟩ Δl Ul Δr Ur ⟨-, hok⟩
      hform ho htt hff ⟨rfl, rfl, hl⟩ ⟨rfl, rfl, hr⟩ hm
    obtain ⟨σ₁, σ₂, h₁, h₂⟩ := hok.sides _ _ (.arms hform ho htt hff)
    exact ⟨_, _, merge_rename g hv h₁ h₂ hm, rfl, rfl, hl.merge hr hm⟩

/-! ### Programs -/

/-- **Shapes decide at the counterpart of a site** where they decide at the site. -/
theorem Settled.counterpart {ok : Site → Prop} (h : c.Settled b)
    (sim : Simulation c c g ok (Renamed g N)) (hok : ∀ a, c.Visits b a → ok a) (hb : c.Accepts b)
    (hbb : Counterpart g (Renamed g N) b b') : c.Settled b' := by
  obtain ⟨Γ, l, t⟩ := b
  obtain ⟨Δ, l', t'⟩ := b'
  obtain ⟨henv, hlife, hterm⟩ := hbb
  obtain ⟨⟨Γ', T⟩, hr⟩ := hb
  cases hlife
  refine ⟨fun x y hxy => ?_, fun sp p t₀ Δ₁ U Δ' e hsource hassign => ?_⟩
  · cases hxy with
    | operands hform ho =>
      obtain ⟨lhs, rhs, onTrue, onFalse, rfl, rfl, rfl, rfl, rfl⟩ :=
        Term.eq_conditional_of_rename hterm
      obtain ⟨left, right, Γ₁, Ts, -, -, hl, hr', hrel, -⟩ := apply_conditional hform hr
      have ho' : c.Operands Γ _ lhs rhs (Γ₁, Ts) := ⟨left, right, hl, hr', hrel⟩
      obtain ⟨hΔ, hTs, -⟩ := sim.results_operands henv hok hform ho' ho
      rw [Ty.rename_compound, Ty.compound.injEq] at hTs
      obtain ⟨T₁, Us, rfl, rfl, hUs⟩ := List.map_eq_cons_iff.1 hTs.symm
      obtain ⟨T₂, Vs, rfl, rfl, hVs⟩ := List.map_eq_cons_iff.1 hUs
      cases List.map_eq_nil_iff.1 hVs
      cases hΔ
      obtain ⟨σ₁, σ₂, h₁, h₂⟩ := h.sides _ _ (.operands hform ho')
      exact ⟨_, _, h₁.rename g, h₂.rename g⟩
    | arms hform ho htt hff =>
      obtain ⟨lhs, rhs, onTrue, onFalse, rfl, rfl, rfl, rfl, rfl⟩ :=
        Term.eq_conditional_of_rename hterm
      obtain ⟨left, right, Γ₁, Ts, ⟨Γt, Tt⟩, ⟨Γf, Tf⟩, hl, hr', hrel, hc, htt', hff', -⟩ :=
        apply_conditional hform hr
      have ho' : c.Operands Γ _ lhs rhs (Γ₁, Ts) := ⟨left, right, hl, hr', hrel⟩
      have hR := sim.forget (sim.results_operands henv hok hform ho' ho)
      obtain ⟨ht, hT, -⟩ := sim.results hR
        (fun a ha => hok a (.head (.onTrue hform hl hr' hrel hc) ha)) htt' htt
      obtain ⟨hf, hF, -⟩ := sim.results hR
        (fun a ha => hok a (.head (.onFalse hform hl hr' hrel hc htt') ha)) hff' hff
      obtain ⟨σ₁, σ₂, h₁, h₂⟩ := h.sides _ _ (.arms hform ho' htt' hff')
      rw [ht, hT, hf, hF]
      exact ⟨_, _, h₁.rename g, h₂.rename g⟩
  · cases e
    cases t with
    | assign _ q t =>
      cases hterm
      obtain ⟨s, Γ₁, T₁, hs, hsource', hassign', -⟩ := apply_assign hr
      obtain ⟨rfl, rfl, hN⟩ := sim.results henv
        (fun a ha => hok a (.head (.source (declared_ok.2 hs)) ha)) hsource' hsource
      obtain ⟨Δ'', hΔ, rfl, -⟩ := sim.assign (hok _ .refl) hsource' ⟨rfl, rfl, hN⟩ hassign'
      cases hassign.symm.trans hΔ
      obtain ⟨hapart, σ, h₁, h₂⟩ := h.writes _ _ _ _ _ _ rfl hsource' hassign'
      exact ⟨hapart.rename g, _, h₁.rename g, h₂.rename g⟩
    | _ => cases hterm

/-- **The program is accepted with the type**, and shapes decide wherever types are compared on the
way. -/
structure Settles (c : Checker) (root : Lifetime) (program : Term) (T : Ty) : Prop where
  accepted : (c.checkProgram root program).result = .ok T
  settled : ∀ b, c.Visits ⟨.empty, root, program⟩ b → c.Settled b

namespace Settles

variable {root : Lifetime} {program : Term}

/-- **A renaming of all names leaves the program accepted.** Its type borrows from variables that
the program names. -/
theorem rename (h : c.Settles root program T) (hv : c.variance = .covariant)
    (hg : ∀ i, g (Env.temporary i) = Env.temporary i) (hN : Env.Unparked program.names) :
    c.Settles root (program.rename g) (T.rename g) ∧
      ∀ m p, T.Lends m p → p.name ∈ program.names := by
  have sim := simulation_renaming hv hg hN
  have hstart : Renamed g program.names .empty .unit .empty .unit := ⟨rfl, rfl, .empty⟩
  have hok : ∀ b, c.Visits ⟨.empty, root, program⟩ b →
      b.term.names ⊆ program.names ∧ c.Settled b := fun b hb => ⟨hb.names_subset, h.settled b hb⟩
  obtain ⟨Γ, -, U, h', -, rfl, hT⟩ := sim.checkProgram hstart hok h.accepted
  refine ⟨⟨h', fun b' hb' => ?_⟩, hT.names⟩
  have ha : c.Accepts ⟨.empty, root, program⟩ := by
    have hacc := h.accepted
    simp only [checkProgram, Traced.result_bind, Traced.bind_eq_ok] at hacc
    exact hacc.imp fun _ => And.left
  have hpair : Counterpart g (Renamed g program.names) ⟨.empty, root, program⟩
      ⟨.empty, root, program.rename g⟩ := ⟨hstart, rfl, rfl⟩
  obtain ⟨b, hb, hbb⟩ := sim.visits hpair hok ha hb'
  exact (h.settled b hb).counterpart sim (fun a hba => hok a (hb.trans hba)) (hb.accepted ha) hbb

end Settles

/-- **Programs that differ in their names are accepted alike.** A program without names of
temporaries is accepted, and shapes decide what is compared on the way, just if that holds of the
program with other such names. The types are then the same with the other names. -/
theorem accepts_renamed (c : Checker) (hv : c.variance = .covariant) (root : Lifetime)
    (program : Term) (f : String → String)
    (hinj : ∀ x ∈ program.names, ∀ y ∈ program.names, f x = f y → x = y)
    (hn : ∀ x ∈ program.names, ¬ "$tmp".toList <+: x.toList ∧ ¬ "$tmp".toList <+: (f x).toList) :
    ((∃ T, c.Settles root program T) ↔ ∃ U, c.Settles root (program.rename f) U) ∧
      ∀ T U, c.Settles root program T → (c.checkProgram root (program.rename f)).result = .ok U →
        U = T.rename f := by
  obtain ⟨g, hgf, hg⟩ := exists_perm (K := fun x => ∃ i, x = Env.temporary i) hinj fun x hx =>
    ⟨fun ⟨i, e⟩ => Env.ne_temporary (hn x hx).1 i e, fun ⟨i, e⟩ => Env.ne_temporary (hn x hx).2 i e⟩
  have hprogram : program.rename f = program.rename g :=
    Term.rename_congr fun x hx => (hgf x hx).symm
  have forth : ∀ T, c.Settles root program T → c.Settles root (program.rename f) (T.rename f) := by
    intro T h
    obtain ⟨h', hT⟩ := h.rename hv (fun i => hg _ ⟨i, rfl⟩) fun x hx => Env.ne_temporary (hn x hx).1
    rwa [hprogram, Ty.rename_congr fun m p hp => (hgf p.name (hT m p hp)).symm]
  refine ⟨⟨fun ⟨T, h⟩ => ⟨_, forth T h⟩, fun ⟨U, h⟩ => ?_⟩, fun T U h hU => ?_⟩
  · have hback := h.rename (g := g.symm) hv (fun i => g.symm_apply_eq.2 (hg _ ⟨i, rfl⟩).symm)
      fun y hy => by
        rw [Term.names_rename] at hy
        obtain ⟨x, hx, rfl⟩ := List.mem_map.1 hy
        exact Env.ne_temporary (hn x hx).2
    rw [hprogram, Term.rename_rename, Equiv.symm_comp_self, Term.rename_id] at hback
    exact ⟨_, hback.1⟩
  · cases hU.symm.trans (forth T h).accepted
    rfl

/-- `{ let mut a = 1; let mut b = 2; let mut x = &mut a; if 1 == 1 { x = &mut b; } else { }`
`*x = 3; }` -/
def steer : Term :=
  .block {} (.inside 1 (.root 0)) [.letMut {} "a" {} (.value {} (.int 1)),
    .letMut {} "b" {} (.value {} (.int 2)), .letMut {} "x" {} (.borrow {} true (.var "a")),
    .ext {} 40 [.value {} (.int 1), .value {} (.int 1),
      .block {} (.inside 1 (.inside 1 (.root 0)))
        [.assign {} (.var "x") (.borrow {} true (.var "b"))],
      .block {} (.inside 2 (.inside 1 (.root 0))) []],
    .assign {} (Place.var "x").deref (.value {} (.int 3))]

/-- With `a` and `b` swapped the last write comes to `b` first. -/
theorem accepts_renamed_steer :
    (∀ x ∈ steer.names, ¬ "$tmp".toList <+: x.toList ∧
      ¬ "$tmp".toList <+: (Equiv.swap "a" "b" x).toList) ∧
    Settles { extensions := Extension.all } (.root 0) steer .unit ∧
    Settles { extensions := Extension.all } (.root 0) (steer.rename (Equiv.swap "a" "b"))
      .unit := by
  have hn : ∀ x ∈ steer.names, ¬ "$tmp".toList <+: x.toList ∧
      ¬ "$tmp".toList <+: (Equiv.swap "a" "b" x).toList := by decide
  have listed : (sites { extensions := Extension.all } .empty (.root 0) steer).all
      (level { extensions := Extension.all } ["a", "b"]) = true := by decide
  have h : Settles { extensions := Extension.all } (.root 0) steer .unit :=
    ⟨rfl, fun b hb => .of_level (List.all_eq_true.1 listed b (mem_sites hb))⟩
  obtain ⟨forth, alike⟩ := accepts_renamed { extensions := Extension.all } rfl (.root 0) steer
    (Equiv.swap "a" "b") (fun x _ y _ e => (Equiv.swap "a" "b").injective e) hn
  obtain ⟨U, hU⟩ := forth.1 ⟨_, h⟩
  cases alike .unit U h hU.accepted
  exact ⟨hn, h, hU⟩

/-- **A program may be accepted under one name and refused under another.** In `rearrange` the place
`*p` has no type after the conditional. It is the first target if `q` is the other one, and the
second if that is called `a`. -/
theorem accepts_renamed_rearranged :
    (∀ x ∈ (rearrange "q").names, ¬ "$tmp".toList <+: x.toList ∧
      ¬ "$tmp".toList <+: (Equiv.swap "a" "q" x).toList) ∧
    (checkProgram { extensions := Extension.all } (.root 0) (rearrange "q")).result =
      .error ⟨.incompatible (.borrowOf true (.var "x")) (.borrowOf true (.var "y")), {}⟩ ∧
    (rearrange "q").rename (Equiv.swap "a" "q") = rearrange "a" ∧
    (checkProgram { extensions := Extension.all } (.root 0) (rearrange "a")).result = .ok .unit :=
  ⟨by decide, rfl, rfl, rfl⟩

end Checker

end Ownership
