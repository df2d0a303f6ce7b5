import Mathlib.Logic.Equiv.Defs
import Ownership.Proofs.Checking.Landings
import Ownership.Proofs.Checking.Reserved

/-!
# Renamed environments

In a renamed environment (`Env.rename`) the same is prohibited, places are available as before, and
have renamed types. Only the order of variables is another one, so other targets come first in the
borrows, and stand for the rest of them when types are compared. That does not matter where shapes
decide what is compatible.

* `Env.typeOf_rename`: **a renamed place has the renamed type.**
* `compatible_rename`: **renamed types are compatible**, where every borrowed place has a type.
* `write_rename`, `join_rename`: **writes and joins give renamed results.**
-/

namespace Ownership

open Relation

variable {g : Equiv.Perm String} {σ σ₁ σ₂ : String → Shape} {Γ Γ₁ Γ₂ Γ' Δ J : Env} {T U a b : Ty}
variable {p q : Place} {x : String} {s : Slot} {l : Lifetime} {n : Nat} {m strong : Bool}
variable {f : Shape} {P P' : Ty → Prop} {whole : Bool}

/-! ### Back again -/

theorem Place.rename_symm (g : Equiv.Perm String) (p : Place) :
    (p.rename g).rename g.symm = p := by
  simp [Place.rename]

theorem Ty.rename_symm (g : Equiv.Perm String) (T : Ty) : (T.rename g).rename g.symm = T := by
  rw [Ty.rename_rename, Equiv.symm_comp_self, Ty.rename_id]

/-! ### Types -/

namespace Ty

theorem lends_rename {f : String → String} :
    (T.rename f).Lends m q ↔ ∃ p, T.Lends m p ∧ p.rename f = q := by
  simp only [Lends, borrows_rename, List.mem_map]
  constructor
  · rintro ⟨_, ⟨b, hb, rfl⟩, hm, hq⟩
    obtain ⟨p, hp, rfl⟩ := PlaceSet.mem_rename.1 hq
    exact ⟨p, ⟨b, hb, hm, hp⟩, rfl⟩
  · rintro ⟨p, ⟨b, hb, hm, hp⟩, rfl⟩
    exact ⟨_, ⟨b, hb, rfl⟩, hm, PlaceSet.mem_rename.2 ⟨p, hp, rfl⟩⟩

/-- Only the variables matter that the type borrows from. -/
theorem rename_congr {f f' : String → String} (h : ∀ m p, T.Lends m p → f p.name = f' p.name) :
    T.rename f = T.rename f' := by
  induction T with
  | unit => rfl
  | int => rfl
  | box t ih => exact congrArg box (ih fun m p hp => h m p (lends_box.2 hp))
  | borrow m ps =>
    exact congrArg (borrow m) (PlaceSet.rename_congr fun p hp => h m p (lends_borrow.2 ⟨rfl, hp⟩))
  | shadow t ih => exact congrArg shadow (ih fun m p hp => h m p (lends_shadow.2 hp))
  | compound ts ih =>
    rw [rename_compound, rename_compound]
    exact congrArg compound (List.map_congr_left fun t ht =>
      ih t ht fun m p hp => h m p (lends_compound.2 ⟨t, ht, hp⟩))

/-- A renamed type has the same shape. -/
theorem Fits.rename (h : T.Fits σ f) (g : Equiv.Perm String) :
    (T.rename g).Fits (σ ∘ g.symm) f := by
  induction h with
  | unit => exact .unit
  | int => exact .int
  | box _ ih => exact .box ih
  | borrow hp hs =>
    refine .borrow (hp.imp' (Place.rename g) fun p hp => PlaceSet.mem_rename.2 ⟨p, hp, rfl⟩) ?_
    intro q hq
    obtain ⟨p, hp, rfl⟩ := PlaceSet.mem_rename.1 hq
    simpa using hs p hp
  | shadow _ ih => exact .shadow ih
  | compound hl _ ih =>
    rw [rename_compound]
    refine .compound (by simpa using hl) fun i t s ht hs => ?_
    rw [List.getElem?_map, Option.map_eq_some_iff] at ht
    obtain ⟨t, ht, rfl⟩ := ht
    exact ih i t s ht hs

theorem Under.rename (h : a.Under b) (f : String → String) : (a.rename f).Under (b.rename f) := by
  induction h with
  | unit => exact .unit
  | int => exact .int
  | box _ ih => exact .box ih
  | borrow hs =>
    refine .borrow fun q hq => ?_
    obtain ⟨p, hp, rfl⟩ := PlaceSet.mem_rename.1 hq
    exact PlaceSet.mem_rename.2 ⟨p, hs p hp, rfl⟩
  | shadow _ ih => exact .shadow ih
  | hidden _ ih => exact .hidden ih
  | compound hl _ ih =>
    rw [rename_compound, rename_compound]
    refine .compound (by simpa using hl) fun i t u ht hu => ?_
    rw [List.getElem?_map, Option.map_eq_some_iff] at ht hu
    obtain ⟨t, ht, rfl⟩ := ht
    obtain ⟨u, hu, rfl⟩ := hu
    exact ih i t u ht hu

end Ty

/-! ### Environments -/

/-- The slot with the variables renamed that its type borrows from. -/
def Slot.rename (f : String → String) (s : Slot) : Slot := ⟨s.ty.rename f, s.lifetime⟩

/-- A renamed place leads the same way in it. -/
theorem Slot.follow_rename (f : String → String) (s : Slot) (p : Place) :
    (s.rename f).ty.follow (p.rename f).path = (s.ty.follow p.path).rename f :=
  Ty.follow_rename f s.ty p.path

namespace Env

/-- The environment with all variables renamed, where `f` gives different ones different names. -/
def rename (f : String → String) (Γ : Env) : Env :=
  .ofList (Γ.entries.map fun e => (f e.1, e.2.rename f))

theorem get?_rename_some {f : String → String} (hf : Function.Injective f) {y : String} :
    (Γ.rename f).get? y = some s ↔ ∃ x t, Γ.get? x = some t ∧ f x = y ∧ t.rename f = s := by
  have hnodup : ((Γ.entries.map fun e => (f e.1, e.2.rename f)).map Prod.fst).Nodup := by
    have hnames := Γ.names_nodup.map hf
    rw [NameMap.names, List.map_map] at hnames
    rwa [List.map_map]
  rw [rename, NameMap.get?_ofList hnodup, List.mem_map]
  constructor
  · rintro ⟨⟨x, t⟩, hm, he⟩
    cases he
    exact ⟨x, t, NameMap.mem_entries_iff.1 hm, rfl, rfl⟩
  · rintro ⟨x, t, hx, rfl, rfl⟩
    exact ⟨(x, t), NameMap.mem_entries_iff.2 hx, rfl⟩

theorem get?_rename (g : Equiv.Perm String) (Γ : Env) (x : String) :
    (Γ.rename g).get? (g x) = (Γ.get? x).map (·.rename g) := by
  refine Option.ext fun s => ?_
  rw [get?_rename_some g.injective, Option.map_eq_some_iff]
  constructor
  · rintro ⟨y, t, ht, hy, rfl⟩
    cases g.injective hy
    exact ⟨t, ht, rfl⟩
  · rintro ⟨t, ht, rfl⟩
    exact ⟨x, t, ht, rfl, rfl⟩

/-- A renamed place is in the renamed slot. -/
theorem slot_rename (g : Equiv.Perm String) (hs : Γ.get? p.name = some s) :
    (Γ.rename g).get? (p.rename g).name = some (s.rename g) := by
  rw [Place.name_rename, get?_rename, hs, Option.map_some]

/-- A renamed environment is known by its look-ups. -/
theorem eq_rename (h : ∀ x, Δ.get? (g x) = (Γ.get? x).map (·.rename g)) : Δ = Γ.rename g := by
  refine NameMap.ext_get? fun y => ?_
  obtain ⟨x, rfl⟩ := g.surjective y
  rw [h, get?_rename]

theorem rename_symm (g : Equiv.Perm String) (Γ : Env) : (Γ.rename g).rename g.symm = Γ := by
  refine (eq_rename (g := g.symm) fun y => ?_).symm
  obtain ⟨x, rfl⟩ := g.surjective y
  rw [get?_rename, Equiv.symm_apply_apply, Option.map_map]
  cases Γ.get? x with
  | none => rfl
  | some s => simp [Slot.rename, Ty.rename_symm]

theorem symm_rename (g : Equiv.Perm String) (Γ : Env) : (Γ.rename g.symm).rename g = Γ :=
  rename_symm g.symm Γ

theorem rename_insert (g : Equiv.Perm String) (Γ : Env) (x : String) (T : Ty) (l : Lifetime) :
    rename g (Γ.insert x ⟨T, l⟩) = (Γ.rename g).insert (g x) ⟨T.rename g, l⟩ := by
  refine (eq_rename fun y => ?_).symm
  simp only [NameMap.get?_insert, get?_rename, g.injective.eq_iff]
  split <;> rfl

theorem rename_dropLifetime (g : Equiv.Perm String) (Γ : Env) (l : Lifetime) :
    rename g (Γ.dropLifetime l) = (Γ.rename g).dropLifetime l := by
  refine (eq_rename fun y => ?_).symm
  rw [dropLifetime, dropLifetime, NameMap.get?_filter, NameMap.get?_filter, get?_rename]
  cases Γ.get? y with
  | none => rfl
  | some s =>
    simp only [Option.map_some, Option.filter, Slot.rename]
    split <;> rfl

theorem rename_eraseAll (g : Equiv.Perm String) (Γ : Env) (N : List String) :
    rename g (Γ.eraseAll N) = (Γ.rename g).eraseAll (N.map g) := by
  refine (eq_rename fun y => ?_).symm
  simp only [NameMap.get?_eraseAll, get?_rename, List.mem_map_of_injective g.injective]
  split <;> rfl

theorem contains_rename (g : Equiv.Perm String) (Γ : Env) (x : String) :
    (Γ.rename g).contains (g x) = Γ.contains x := by
  rw [NameMap.contains, NameMap.contains, get?_rename, Option.isSome_map]

/-- Temporaries that keep their names are taken as before. -/
theorem freshName_rename (hg : ∀ i, g (temporary i) = temporary i) (Γ : Env) :
    (Γ.rename g).freshName = Γ.freshName := by
  refine freshName_congr fun i => ?_
  conv_lhs => rw [← hg i]
  exact contains_rename g Γ _

/-! ### Tests -/

theorem any_values_rename (F F' : Ty → Bool) (hF : ∀ t, F' (t.rename g) = F t) (Γ : Env) :
    ((Γ.rename g).values.any fun s => F' s.ty) = Γ.values.any fun s => F s.ty := by
  rw [Bool.eq_iff_iff, List.any_eq_true, List.any_eq_true]
  constructor
  · rintro ⟨_, hs, h⟩
    obtain ⟨y, hy⟩ := NameMap.mem_values_iff.1 hs
    obtain ⟨x, t, hx, -, rfl⟩ := (get?_rename_some g.injective).1 hy
    exact ⟨t, NameMap.mem_values hx, (hF t.ty).symm.trans h⟩
  · rintro ⟨t, ht, h⟩
    obtain ⟨x, hx⟩ := NameMap.mem_values_iff.1 ht
    have hx := (get?_rename_some g.injective).2 ⟨x, t, hx, rfl, rfl⟩
    exact ⟨_, NameMap.mem_values hx, (hF t.ty).trans h⟩

theorem readProhibited_rename (g : Equiv.Perm String) (Γ : Env) (p : Place) :
    (Γ.rename g).readProhibited (p.rename g) = Γ.readProhibited p :=
  any_values_rename (·.prohibitsReading p) (·.prohibitsReading (p.rename g))
    (fun t => t.prohibitsReading_rename g.injective p) Γ

theorem writeProhibited_rename (g : Equiv.Perm String) (Γ : Env) (p : Place) :
    (Γ.rename g).writeProhibited (p.rename g) = Γ.writeProhibited p :=
  any_values_rename (·.prohibitsWriting p) (·.prohibitsWriting (p.rename g))
    (fun t => t.prohibitsWriting_rename g.injective p) Γ

theorem within_rename (g : Equiv.Perm String) (Γ : Env) (T : Ty) (l : Lifetime) :
    (Γ.rename g).within (T.rename g) l = Γ.within T l := by
  have hslot : ∀ p : Place, ((Γ.rename g).get? (g p.name)).any (l.within ·.lifetime) =
      (Γ.get? p.name).any (l.within ·.lifetime) := by
    intro p
    rw [get?_rename, Option.any_map]
    rfl
  rw [within, within, Bool.eq_iff_iff, List.all_eq_true, List.all_eq_true]
  constructor
  · intro h p hp
    obtain ⟨m, hp⟩ := Ty.mem_borrowed.1 hp
    rw [← hslot]
    exact h _ (Ty.lends_rename.2 ⟨p, hp, rfl⟩).borrowed
  · intro h q hq
    obtain ⟨m, hq⟩ := Ty.mem_borrowed.1 hq
    obtain ⟨p, hp, rfl⟩ := Ty.lends_rename.1 hq
    exact (hslot p).trans (h p hp.borrowed)

theorem availability_rename (g : Equiv.Perm String) (Γ : Env) (p : Place) (write : Bool) :
    availability (Γ.rename g) (p.rename g) write = availability Γ p write := by
  rw [availability, availability, Place.name_rename, get?_rename]
  cases Γ.get? p.name with
  | none => rfl
  | some s =>
    simp only [Option.map_some, Slot.rename, Place.path_rename, Ty.follow_rename]
    cases s.ty.follow p.path with
    | reached t => simp only [Walk.rename, Ty.defined_rename]
    | _ => rfl

/-! ### Types of places -/

theorem unionOver_rename {F F' : Place → Except Violation Ty} {joined : Option Ty}
    {places : List Place} (f : String → String)
    (hF : ∀ p ∈ places, ∀ u, F p = .ok u → F' (p.rename f) = .ok (u.rename f))
    (h : unionOver F joined places = .ok T) :
    unionOver F' (joined.map (·.rename f)) (places.map (·.rename f)) = .ok (T.rename f) := by
  induction places generalizing joined with
  | nil =>
    cases h
    cases joined <;> rfl
  | cons p ps ih =>
    obtain ⟨u, v, hu, hrest, hv⟩ := unionOver_cons h
    have hps := ih (fun q hq => hF q (List.mem_cons_of_mem _ hq)) hrest
    rw [List.map_cons, unionOver, hF p List.mem_cons_self u hu, Traced.ok_bind]
    rcases hv with ⟨rfl, rfl⟩ | ⟨w, rfl, hw⟩
    · exact hps
    · simp only [Option.map_some, Ty.union_rename, hw]
      exact hps

theorem typeUpTo_rename (g : Equiv.Perm String) (h : typeUpTo Γ n p = .ok T) :
    typeUpTo (Γ.rename g) n (p.rename g) = .ok (T.rename g) := by
  induction n generalizing p T with
  | zero => cases h
  | succ n ih =>
    obtain ⟨s, hs, hf | ⟨m, ps, rest, hf, hu⟩⟩ := typeUpTo_ok h
    · exact typeUpTo_of_reached (slot_rename g hs) (by rw [Slot.follow_rename, hf, Walk.rename])
    · rw [typeUpTo_of_crossed (slot_rename g hs) (by rw [Slot.follow_rename, hf, Walk.rename])]
      -- the renamed targets come in another order
      refine unionOver_of_mem_iff (unionOver_rename g (fun q _ u hq => ih hq) hu) fun q => ?_
      simp only [List.mem_map, exists_exists_and_eq_and, ← PlaceSet.mem_def, PlaceSet.mem_rename,
        Place.rename_extend]

/-- **A renamed place has the renamed type.** -/
theorem typeOf_rename (g : Equiv.Perm String) (h : typeOf Γ p = .ok T) :
    typeOf (Γ.rename g) (p.rename g) = .ok (T.rename g) :=
  typeOf_of_typeUpTo (typeUpTo_rename g h)

end Env

/-! ### Comparisons -/

/-- Shapes are renamed with the variables. -/
theorem Kept.rename (h : Kept LentTyped σ Γ T) (g : Equiv.Perm String) :
    Kept LentTyped (σ ∘ g.symm) (Γ.rename g) (T.rename g) := by
  have typed : ∀ p, (∃ U, typeOf Γ p = .ok U) → ∃ U, typeOf (Γ.rename g) (p.rename g) = .ok U :=
    fun p ⟨U, hU⟩ => ⟨_, Env.typeOf_rename g hU⟩
  refine ⟨fun y s hy => ?_, h.fits.imp fun f hf => hf.rename g, fun y s m q hy hq => ?_,
    fun m q hq => ?_⟩
  · obtain ⟨x, t, hx, rfl, rfl⟩ := (Env.get?_rename_some g.injective).1 hy
    rw [Function.comp_apply, Equiv.symm_apply_apply]
    exact (h.shaped x t hx).rename g
  · obtain ⟨x, t, hx, rfl, rfl⟩ := (Env.get?_rename_some g.injective).1 hy
    obtain ⟨p, hp, rfl⟩ := Ty.lends_rename.1 hq
    exact typed p (h.holds.1 x t m p hx hp)
  · obtain ⟨p, hp, rfl⟩ := Ty.lends_rename.1 hq
    exact typed p (h.holds.2 m p hp)

/-- **Renamed types are compatible**, where every borrowed place has a type. -/
theorem compatible_rename (g : Equiv.Perm String) (h₁ : Kept LentTyped σ₁ Γ₁ a)
    (h₂ : Kept LentTyped σ₂ Γ₂ b) (h : compatible .covariant Γ₁ a b Γ₂ = .ok true) :
    compatible .covariant (Γ₁.rename g) (a.rename g) (b.rename g) (Γ₂.rename g) = .ok true := by
  obtain ⟨f₁, ha⟩ := h₁.fits
  obtain ⟨f₂, hb⟩ := h₂.fits
  cases compatible_shape (.inl rfl) h₁.shaped h₂.shaped h ha hb
  exact compatible_of_fits (h₁.rename g) (h₂.rename g) (ha.rename g) (hb.rename g)

/-- **Renamed environments have the renamed join.** -/
theorem join_rename (g : Equiv.Perm String) (h₁ : Kept LentTyped σ₁ Γ₁ a)
    (h₂ : Kept LentTyped σ₂ Γ₂ b) (hj : join .covariant Γ₁ Γ₂ = .ok J) :
    join .covariant (Γ₁.rename g) (Γ₂.rename g) = .ok (J.rename g) := by
  obtain ⟨hnone, hsome⟩ := join_eq_ok.1 hj
  refine join_eq_ok.2 ⟨fun y hy => ?_, fun y left hl => ?_⟩
  · obtain ⟨x, rfl⟩ := g.surjective y
    rw [Env.get?_rename, Option.map_eq_none_iff] at hy
    rw [Env.get?_rename, Env.get?_rename, (hnone x hy).1, (hnone x hy).2]
    exact ⟨rfl, rfl⟩
  · obtain ⟨x, rfl⟩ := g.surjective y
    rw [Env.get?_rename, Option.map_eq_some_iff] at hl
    obtain ⟨left, hl, rfl⟩ := hl
    obtain ⟨right, T, hr, hlife, hc, hu, hJ⟩ := hsome x left hl
    refine ⟨right.rename g, T.rename g, by rw [Env.get?_rename, hr, Option.map_some], hlife,
      compatible_rename g (h₁.slot hl) (h₂.slot hr) hc, ?_, ?_⟩
    · rw [Slot.rename, Slot.rename, Ty.union_rename, hu, Option.map_some]
    · rw [Env.get?_rename, hJ, Option.map_some]
      rfl

/-! ### Writes -/

namespace Env

theorem Under.rename (h : Γ.Under Δ) (g : Equiv.Perm String) :
    (Γ.rename g).Under (Δ.rename g) := by
  intro y
  obtain ⟨x, rfl⟩ := g.surjective y
  rw [get?_rename, get?_rename]
  have hx := h x
  generalize Γ.get? x = o at hx
  generalize Δ.get? x = o' at hx
  cases hx with
  | none => exact .none
  | some hs => exact .some ⟨Ty.Under.rename hs.1 g, hs.2⟩

theorem Follows.rename (h : Γ.Follows p q) (g : Equiv.Perm String) :
    (Γ.rename g).Follows (p.rename g) (q.rename g) := by
  obtain ⟨s, m, ps, rest, t, hs, hf, ht, rfl⟩ := h
  refine ⟨s.rename g, m, ps.rename g, rest, t.rename g, slot_rename g hs, ?_,
    PlaceSet.mem_rename.2 ⟨t, ht, rfl⟩, rfl⟩
  rw [Slot.follow_rename, hf, Walk.rename]

theorem ways_rename (h : ReflTransGen Γ.Follows p q) (g : Equiv.Perm String) :
    ReflTransGen (Γ.rename g).Follows (p.rename g) (q.rename g) :=
  h.lift (Place.rename g) fun _ _ hstep => hstep.rename g

/-- A way in a renamed environment is a renamed way. -/
theorem exists_way (h : ReflTransGen (Γ.rename g).Follows (p.rename g) q) :
    ∃ r, ReflTransGen Γ.Follows p r ∧ r.rename g = q := by
  have hback := ways_rename h g.symm
  rw [rename_symm, Place.rename_symm] at hback
  refine ⟨_, hback, ?_⟩
  simpa using Place.rename_symm g.symm q

theorem Passes.rename (h : Γ.Passes p x) (g : Equiv.Perm String) :
    (Γ.rename g).Passes (p.rename g) (g x) := by
  obtain ⟨q, s, m, ps, rest, hq, rfl, hs, hf⟩ := h
  exact ⟨q.rename g, s.rename g, m, ps.rename g, rest, ways_rename hq g, rfl, slot_rename g hs,
    by rw [Slot.follow_rename, hf, Walk.rename]⟩

theorem Lands.rename (h : Γ.Lands p x) (g : Equiv.Perm String) :
    (Γ.rename g).Lands (p.rename g) (g x) := by
  obtain ⟨q, s, u, hq, rfl, hs, hf⟩ := h
  exact ⟨q.rename g, s.rename g, u.rename g, ways_rename hq g, rfl, slot_rename g hs,
    by rw [Slot.follow_rename, hf, Walk.rename]⟩

theorem Apart.rename (h : Γ.Apart p) (g : Equiv.Perm String) :
    (Γ.rename g).Apart (p.rename g) := by
  intro y hpass hland
  have hpass := hpass.rename g.symm
  have hland := hland.rename g.symm
  rw [rename_symm, Place.rename_symm] at hpass hland
  exact h _ hpass hland

theorem Everywhere.rename (h : Γ.Everywhere whole P p) (hP : ∀ u, P u → P' (u.rename g)) :
    (Γ.rename g).Everywhere whole P' (p.rename g) := by
  have walk : ∀ {p : Place} {s : Slot} {w : Walk}, s.ty.follow p.path = w →
      (s.rename g).ty.follow (p.rename g).path = w.rename g := by
    rintro p s w rfl
    exact s.follow_rename g p
  induction h with
  | reached hs hf hu => exact .reached (slot_rename g hs) (walk hf) (hP _ hu)
  | crossed hs hf _ ih =>
    refine .crossed (slot_rename g hs) (walk hf) fun q hq => ?_
    obtain ⟨t, ht, rfl⟩ := PlaceSet.mem_rename.1 hq
    exact ih t ht
  | moved hw hs hf => exact .moved hw (slot_rename g hs) (walk hf)

theorem Takes.rename (h : Γ.Takes T p) (g : Equiv.Perm String) :
    (Γ.rename g).Takes (T.rename g) (p.rename g) := by
  refine ⟨fun q hq => ?_, h.everywhere.rename fun u hu => Ty.Under.rename hu g⟩
  obtain ⟨r, hr, rfl⟩ := exists_way hq
  obtain ⟨s, hs, hw, hmut⟩ := h.allows r hr
  refine ⟨s.rename g, slot_rename g hs, (within_rename ..).trans hw, fun m ps rest hf => ?_⟩
  rw [Slot.follow_rename] at hf
  generalize hw : s.ty.follow r.path = w at hf
  cases w with
  | crossed m' qs rest' =>
    cases hf
    exact hmut m qs rest hw
  | _ => cases hf

end Env

/-- A renamed place passes the tests of a write. -/
theorem Admits.rename (h : Admits .covariant Γ p T s) (g : Equiv.Perm String)
    (hk : Kept LentTyped σ Γ T) :
    Admits .covariant (Γ.rename g) (p.rename g) (T.rename g) (s.rename g) := by
  obtain ⟨current, ht, hc⟩ := h.compatible
  exact ⟨Env.slot_rename g h.slot, (Env.within_rename ..).trans h.within, _,
    Env.typeOf_rename g ht, compatible_rename g (hk.found ht) hk hc⟩

/-- What has been written has the shape of the place. -/
theorem Admits.fits (h : Admits .covariant Γ p T s) (hk : Kept LentTyped σ Γ T) :
    T.Fits σ ((σ p.name).part p.path) := by
  obtain ⟨f, hf⟩ := hk.fits
  obtain ⟨current, ht, hc⟩ := h.compatible
  cases compatible_shape (.inl rfl) hk.shaped hk.shaped hc (hk.shaped.typeOf ht) hf
  exact hf

/-- **A write behind a borrow leaves the renamed environment**, although it comes to the targets in
another order. -/
theorem write_rename_weak (g : Equiv.Perm String) (ha : Γ.Apart p) (hd : T.defined = true)
    (h₁ : Kept LentTyped σ Γ T) (h₂ : Kept LentTyped σ Γ' T)
    (hw : write .covariant Γ p T false = .ok Γ') :
    write .covariant (Γ.rename g) (p.rename g) (T.rename g) false = .ok (Γ'.rename g) := by
  obtain ⟨s, hadm⟩ := admits_of_write hw
  have hfit := hadm.fits h₁
  have hd' : (T.rename g).defined = true := (Ty.defined_rename ..).trans hd
  obtain ⟨hup, htakes⟩ := Env.takes_of_write ha hd hw
  obtain ⟨Δ, hw', hΔ, hs⟩ := (htakes.rename g).exists_write (h₂.rename g) hd'
    (by simpa using hfit.rename g) (Env.Under.rename hup g) (h₁.rename g).shaped
  -- what has been left by the one write takes the other
  obtain ⟨hup', htakes'⟩ := Env.takes_of_write (ha.rename g) hd' hw'
  have hback := htakes'.rename g.symm
  have hupback := Env.Under.rename hup' g.symm
  have hkept := (hΔ.kept hs (h₂.rename g)).rename g.symm
  have hσ : (σ ∘ g.symm) ∘ g.symm.symm = σ := by
    funext x
    simp
  rw [Ty.rename_symm, Place.rename_symm] at hback
  rw [Env.rename_symm] at hupback
  rw [hσ, Ty.rename_symm] at hkept
  obtain ⟨Γ'', hw'', hΓ'', -⟩ := hback.exists_write hkept hd hfit hupback h₁.shaped
  cases hw.symm.trans hw''
  have hΓ' := Env.Under.rename hΓ'' g
  rw [Env.symm_rename] at hΓ'
  rw [hw', hΔ.antisymm hΓ']

/-- **A write to a renamed place leaves the renamed environment.** -/
theorem write_rename (g : Equiv.Perm String) (ha : Γ.Apart p) (hd : T.defined = true)
    (h₁ : Kept LentTyped σ Γ T) (h₂ : Kept LentTyped σ Γ' T)
    (hw : write .covariant Γ p T strong = .ok Γ') :
    write .covariant (Γ.rename g) (p.rename g) (T.rename g) strong = .ok (Γ'.rename g) := by
  have hw₀ := hw
  rw [write] at hw₀
  generalize crossings _ _ p = n at hw₀
  cases n with
  | zero => cases hw₀
  | succ n =>
    obtain ⟨s, hadm, ⟨old, new, hf, rfl, hnew⟩ | ⟨ps, rest, Γ₁, hf, -, -⟩⟩ := writeUpTo_ok hw₀
    · refine write_of_writeUpTo (n := 1) ((Ty.defined_rename ..).trans hd) ?_
      rw [Env.rename_insert, Ty.replaceAt_rename]
      have hf' : (s.rename g).ty.follow (p.rename g).path = .reached (old.rename g) := by
        rw [Slot.follow_rename, hf, Walk.rename]
      refine writeUpTo_of_reached (hadm.rename g h₁) hf' ?_
      rcases hnew with ⟨hs, rfl⟩ | ⟨hs, hu⟩
      · exact .inl ⟨hs, rfl⟩
      · exact .inr ⟨hs, by rw [Ty.union_rename, hu, Option.map_some]⟩
    · have weak : ∀ {Γ : Env} {p : Place} {T : Ty} {s : Slot} {ps : PlaceSet},
          Γ.get? p.name = some s → s.ty.follow p.path = .crossed true ps rest →
          write .covariant Γ p T strong = write .covariant Γ p T false := by
        intro Γ p T s ps hs hf
        rw [write, write, writeUpTo_crossed hs hf]
      rw [weak hadm.slot hf] at hw
      rw [weak (Env.slot_rename g hadm.slot) (by rw [Slot.follow_rename, hf, Walk.rename])]
      exact write_rename_weak g ha hd h₁ h₂ hw

end Ownership
