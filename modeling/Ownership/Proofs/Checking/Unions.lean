import Ownership.Proofs.Checking.Shapes

/-!
# Types below others

One type lies below another one if it has the same parts and no more shadows, and its borrows have
targets that `le` relates (`Ty.Below`). With equal targets the type is the other one with shadows
taken off (`Ty.Clearer`). With inclusion of targets this is an order, and the union of two types is
their least upper bound, so it does not depend on what is united first.

* `Ty.Below.union`: **the union of types below others lies below the union of these.**
* `Ty.exists_union`, `Ty.under_of_union`: **the union is the least upper bound.**
-/

namespace Ownership

namespace Ty

variable {le : PlaceSet → PlaceSet → Prop} {a b c d a' b' t u old new new' : Ty}
variable {as bs cs : List Ty} {m : Bool} {p : Place} {s rest : List Selector} {ps : PlaceSet}

/-! ### The order -/

/-- **The first type lies below the second one.** -/
inductive Below (le : PlaceSet → PlaceSet → Prop) : Ty → Ty → Prop where
  | unit : Below le .unit .unit
  | int : Below le .int .int
  | box {a b : Ty} : Below le a b → Below le (.box a) (.box b)
  | borrow {m : Bool} {ps qs : PlaceSet} : le ps qs → Below le (.borrow m ps) (.borrow m qs)
  | compound {as bs : List Ty} : as.length = bs.length →
      (∀ (i : Nat) a b, as[i]? = some a → bs[i]? = some b → Below le a b) →
      Below le (.compound as) (.compound bs)
  | shadow {a b : Ty} : Below le a b → Below le (.shadow a) (.shadow b)
  | hidden {a b : Ty} : Below le a b → Below le a (.shadow b)

/-- The type is the other one with some shadows taken off. -/
abbrev Clearer : Ty → Ty → Prop := Below Eq

/-- Whatever the type may be, the other one may be, too. -/
abbrev Under : Ty → Ty → Prop := Below fun ps qs => ∀ p ∈ ps, p ∈ qs

namespace Below

theorem refl (hle : ∀ ps, le ps ps) (t : Ty) : Below le t t := by
  induction t with
  | unit => exact .unit
  | int => exact .int
  | box t ih => exact .box ih
  | borrow m ps => exact .borrow (hle ps)
  | shadow t ih => exact .shadow ih
  | compound ts ih =>
    refine .compound rfl fun i a b ha hb => ?_
    cases ha.symm.trans hb
    exact ih a (List.mem_of_getElem? ha)

theorem trans (hle : ∀ ps qs rs, le ps qs → le qs rs → le ps rs) (h : Below le a b)
    (h' : Below le b c) : Below le a c := by
  induction h' generalizing a with
  | unit => exact h
  | int => exact h
  | box _ ih =>
    cases h with
    | box h => exact .box (ih h)
  | borrow hq =>
    cases h with
    | borrow hp => exact .borrow (hle _ _ _ hp hq)
  | shadow _ ih =>
    cases h with
    | shadow h => exact .shadow (ih h)
    | hidden h => exact .hidden (ih h)
  | hidden _ ih => exact .hidden (ih h)
  | compound hl _ ih =>
    cases h with
    | compound hl' h =>
      refine .compound (hl'.trans hl) fun i a c ha hc => ?_
      obtain ⟨b, hb⟩ := Refines.exists_getElem? hl' ha
      exact ih i b c hb hc (h i a b ha hb)

/-- Without its outermost shadow a type lies lower. -/
theorem peel_left (h : Below le a b) : Below le a.peel b := by
  induction h with
  | unit => exact .unit
  | int => exact .int
  | box h => exact .box h
  | borrow h => exact .borrow h
  | compound hl h => exact .compound hl h
  | shadow h => exact .hidden h
  | hidden _ ih => exact .hidden ih

theorem peel (h : Below le a b) : Below le a.peel b.peel := by
  cases h with
  | unit => exact .unit
  | int => exact .int
  | box h => exact .box h
  | borrow h => exact .borrow h
  | compound hl h => exact .compound hl h
  | shadow h => exact h
  | hidden h => exact h.peel_left

/-- What lies below a whole type is whole. -/
theorem defined (h : Below le a b) (hb : b.defined = true) : a.defined = true := by
  induction h with
  | unit => rfl
  | int => rfl
  | box _ ih => exact ih hb
  | borrow => rfl
  | shadow => cases hb
  | hidden => cases hb
  | compound hl _ ih =>
    rw [Ty.defined, allDefined_eq, List.all_eq_true] at hb ⊢
    intro a ha
    obtain ⟨i, hi⟩ := List.mem_iff_getElem?.1 ha
    obtain ⟨b, hb'⟩ := Refines.exists_getElem? hl hi
    exact ih i a b hi hb' (hb b (List.mem_of_getElem? hb'))

/-- A type has no more than the borrows of the ones above it. -/
theorem lends (hle : ∀ ps qs, le ps qs → ∀ p ∈ ps, p ∈ qs) (h : Below le a b)
    (hp : a.Lends m p) : b.Lends m p := by
  induction h with
  | unit => exact hp
  | int => exact hp
  | box _ ih => exact lends_box.2 (ih (lends_box.1 hp))
  | borrow hs => exact lends_borrow.2 ((lends_borrow.1 hp).imp_right (hle _ _ hs p))
  | shadow _ ih => exact lends_shadow.2 (ih (lends_shadow.1 hp))
  | hidden _ ih => exact lends_shadow.2 (ih hp)
  | compound hl _ ih =>
    obtain ⟨a, ha, hp⟩ := lends_compound.1 hp
    obtain ⟨i, hi⟩ := List.mem_iff_getElem?.1 ha
    obtain ⟨b, hb⟩ := Refines.exists_getElem? hl hi
    exact lends_compound.2 ⟨b, List.mem_of_getElem? hb, ih i a b hi hb hp⟩

end Below

/-! ### Paths -/

end Ty

/-- A walk in a type, and the same walk in one above it, which may end at a shadow before. -/
inductive Walk.Below (le : PlaceSet → PlaceSet → Prop) : Walk → Walk → Prop where
  | reached {t u : Ty} : Ty.Below le t u → Below le (.reached t) (.reached u)
  | crossed {m : Bool} {ps qs : PlaceSet} {rest : List Selector} : le ps qs →
      Below le (.crossed m ps rest) (.crossed m qs rest)
  | shadowed {w : Walk} : Below le w .shadowed
  | notReference : Below le .notReference .notReference
  | misfit : Below le .misfit .misfit

namespace Ty

variable {le : PlaceSet → PlaceSet → Prop} {a b c d a' b' t u old new new' : Ty}
variable {as bs cs : List Ty} {m : Bool} {p : Place} {s rest : List Selector} {ps : PlaceSet}

namespace Below

theorem follow (h : Below le t u) (s : List Selector) : (t.follow s).Below le (u.follow s) := by
  induction h generalizing s with
  | unit =>
    cases s with
    | nil => exact .reached .unit
    | cons a s => cases a <;> exact .notReference
  | int =>
    cases s with
    | nil => exact .reached .int
    | cons a s => cases a <;> exact .notReference
  | box h ih =>
    cases s with
    | nil => exact .reached (.box h)
    | cons a s =>
      cases a with
      | deref => exact ih s
      | index i => exact .misfit
  | borrow h =>
    cases s with
    | nil => exact .reached (.borrow h)
    | cons a s =>
      cases a with
      | deref => exact .crossed h
      | index i => exact .notReference
  | shadow h =>
    cases s with
    | nil => exact .reached (.shadow h)
    | cons a s =>
      rw [follow_shadow, follow_shadow]
      exact .shadowed
  | hidden h =>
    cases s with
    | nil =>
      rw [follow_nil, follow_nil]
      exact .reached (.hidden h)
    | cons a s =>
      rw [follow_shadow]
      exact .shadowed
  | @compound as bs hl h ih =>
    cases s with
    | nil => exact .reached (.compound hl h)
    | cons a s =>
      cases a with
      | deref => exact .misfit
      | index i =>
        simp only [Ty.follow]
        cases ha : as[i]? with
        | none =>
          have hb : bs[i]? = none := by
            rw [List.getElem?_eq_none_iff] at ha ⊢
            omega
          rw [hb]
          exact .misfit
        | some a =>
          obtain ⟨b, hb⟩ := Refines.exists_getElem? hl ha
          rw [hb]
          exact ih i a b ha hb s

/-- Where a path reaches a part of the type above, it reaches one below it. -/
theorem reached (h : Below le t u) (hf : u.follow s = .reached old) :
    ∃ old', t.follow s = .reached old' ∧ Below le old' old := by
  have hs := h.follow s
  rw [hf] at hs
  generalize t.follow s = w at hs
  cases hs with
  | reached h => exact ⟨_, rfl, h⟩

theorem crossed (h : Below le t u) (hf : u.follow s = .crossed m ps rest) :
    ∃ qs, t.follow s = .crossed m qs rest ∧ le qs ps := by
  have hs := h.follow s
  rw [hf] at hs
  generalize t.follow s = w at hs
  cases hs with
  | crossed h => exact ⟨_, rfl, h⟩

/-- Parts of both types are replaced. -/
theorem replaceAt (h : Below le t u) (hf : u.follow s = .reached old) (hn : Below le new' new) :
    Below le (t.replaceAt s new') (u.replaceAt s new) := by
  induction u, s, hf using reached_induction generalizing t with
  | here =>
    rw [replaceAt_nil, replaceAt_nil]
    exact hn
  | box u s hf ih =>
    cases h with
    | box h => exact .box (ih h)
  | component us i u s hi hf ih =>
    cases h with
    | compound hl h =>
      refine .compound (by simpa using hl) fun j w w' hw hw' => ?_
      rcases component_of_modify hw with ⟨w₀, rfl, hw₀, rfl⟩ | ⟨e, hw₀⟩
      · rcases component_of_modify hw' with ⟨w₁, -, hw₁, rfl⟩ | ⟨e, -⟩
        · cases hi.symm.trans hw₁
          exact ih (h i w₀ u hw₀ hi)
        · exact absurd rfl e
      · rcases component_of_modify hw' with ⟨w₁, rfl, -, -⟩ | ⟨-, hw₁⟩
        · exact absurd rfl e
        · exact h j w w' hw₀ hw₁

end Below

namespace Under

theorem refl (t : Ty) : t.Under t := Below.refl (fun _ _ => id) t

theorem trans (h : a.Under b) (h' : b.Under c) : a.Under c :=
  Below.trans (fun _ _ _ hp hq p hm => hq p (hp p hm)) h h'

theorem lends (h : a.Under b) (hp : a.Lends m p) : b.Lends m p := Below.lends (fun _ _ => id) h hp

/-- A part is replaced by one above it. -/
theorem of_replaceAt (hf : t.follow s = .reached old) (h : old.Under new) :
    t.Under (t.replaceAt s new) := by
  have hrep := Below.replaceAt (Under.refl t) hf h
  rwa [replaceAt_self hf] at hrep

end Under

/-! ### Unions -/

theorem peel_of_ne_shadow (h : ¬ ∃ t, a = .shadow t) : a.peel = a := by
  cases a with
  | shadow t => exact absurd ⟨t, rfl⟩ h
  | _ => rfl

/-- What the peeled types have as their union lies below the union under a shadow. -/
theorem union_of_peel (hc : ∃ c', a.peel.union b.peel = some c' ∧ Below le c' c) :
    ∃ c', a.union b = some c' ∧ Below le c' (.shadow c) := by
  obtain ⟨c', hu, hc⟩ := hc
  by_cases hs : ∃ t, a = .shadow t ∨ b = .shadow t
  · exact ⟨.shadow c', by rw [union_shadow hs, hu]; rfl, .shadow hc⟩
  · have ha : a.peel = a := peel_of_ne_shadow fun ⟨t, e⟩ => hs ⟨t, .inl e⟩
    have hb : b.peel = b := peel_of_ne_shadow fun ⟨t, e⟩ => hs ⟨t, .inr e⟩
    rw [ha, hb] at hu
    exact ⟨c', hu, .hidden hc⟩

theorem union_of_components (hl : as.length = cs.length) (hl' : bs.length = cs.length)
    (each : ∀ (i : Nat) a b c, as[i]? = some a → bs[i]? = some b → cs[i]? = some c →
      ∃ c', a.union b = some c' ∧ Below le c' c) :
    ∃ c', (compound as).union (compound bs) = some c' ∧ Below le c' (.compound cs) := by
  obtain ⟨us, hus⟩ := Fits.unionAll (hl.trans hl'.symm) fun i a b ha hb => by
    obtain ⟨c, hc⟩ := Refines.exists_getElem? hl ha
    obtain ⟨c', hu, -⟩ := each i a b c ha hb hc
    exact ⟨c', hu⟩
  obtain ⟨hlen, -, hunions⟩ := unionAll_getElem? hus
  refine ⟨.compound us, by simp [Ty.union, beneath, hus], .compound (hlen.trans hl) ?_⟩
  intro i u c hu hc
  obtain ⟨a, b, ha, hb, hab⟩ := hunions i u hu
  obtain ⟨c', hc', hbelow⟩ := each i a b c ha hb hc
  cases hab.symm.trans hc'
  exact hbelow

/-- **The union of types below others lies below the union of these.** -/
theorem Below.union (hle : ∀ ps qs ps' qs', le ps' ps → le qs' qs → le (ps' ∪ qs') (ps ∪ qs))
    (h : a.union b = some c) (ha : Below le a' a) (hb : Below le b' b) :
    ∃ c', a'.union b' = some c' ∧ Below le c' c := by
  have hj := joins_of_union h
  clear h
  induction hj generalizing a' b' with
  | unit =>
    cases ha
    cases hb
    exact ⟨_, rfl, .unit⟩
  | int =>
    cases ha
    cases hb
    exact ⟨_, rfl, .int⟩
  | box _ ih =>
    cases ha with
    | box ha =>
      cases hb with
      | box hb =>
        obtain ⟨c', hu, hc⟩ := ih ha hb
        exact ⟨.box c', by simp [Ty.union, beneath, hu], .box hc⟩
  | borrow =>
    cases ha with
    | borrow ha =>
      cases hb with
      | borrow hb => exact ⟨_, Joins.borrow.union, .borrow (hle _ _ _ _ ha hb)⟩
  | shadow _ _ ih => exact union_of_peel (ih ha.peel hb.peel)
  | compound hcs _ ih =>
    cases ha with
    | compound hla ha =>
      cases hb with
      | compound hlb hb =>
        obtain ⟨hl, hl', -⟩ := unionAll_getElem? hcs
        refine union_of_components (hla.trans hl.symm) (hlb.trans hl'.symm) ?_
        intro i a' b' c ha' hb' hc
        obtain ⟨a, ha₀⟩ := Refines.exists_getElem? hla ha'
        obtain ⟨b, hb₀⟩ := Refines.exists_getElem? hlb hb'
        exact ih i a b c ha₀ hb₀ hc (ha i a' a ha' ha₀) (hb i b' b hb' hb₀)

/-! ### Least upper bounds -/

theorem under_shadow (h : Under a.peel c) : Under a (.shadow c) := by
  cases a with
  | shadow a => exact .shadow h
  | _ => exact .hidden h

theorem under_of_components (h : unionAll as bs = some cs)
    (each : ∀ (i : Nat) a b c, as[i]? = some a → bs[i]? = some b → cs[i]? = some c →
      Under a c ∧ Under b c) : Under (.compound as) (.compound cs) ∧
        Under (.compound bs) (.compound cs) := by
  obtain ⟨hl, hl', hunions⟩ := unionAll_getElem? h
  refine ⟨.compound hl.symm fun i a c ha hc => ?_, .compound hl'.symm fun i b c hb hc => ?_⟩
  · obtain ⟨a', b, ha', hb, -⟩ := hunions i c hc
    exact (each i a b c ha hb hc).1
  · obtain ⟨a, b', ha, hb', -⟩ := hunions i c hc
    exact (each i a b c ha hb hc).2

/-- **The union lies above both types.** -/
theorem under_of_union (h : a.union b = some c) : Under a c ∧ Under b c := by
  have hj := joins_of_union h
  clear h
  induction hj with
  | unit => exact ⟨.unit, .unit⟩
  | int => exact ⟨.int, .int⟩
  | box _ ih => exact ih.imp .box .box
  | borrow =>
    exact ⟨.borrow fun p hp => PlaceSet.mem_union.2 (.inl hp),
      .borrow fun p hp => PlaceSet.mem_union.2 (.inr hp)⟩
  | compound hcs _ ih => exact under_of_components hcs ih
  | shadow _ _ ih => exact ih.imp under_shadow under_shadow

/-- **Types with an upper bound have a union**, and it lies below the bound. -/
theorem exists_union (ha : Under a d) (hb : Under b d) :
    ∃ c, a.union b = some c ∧ Under c d := by
  induction d generalizing a b with
  | unit =>
    cases ha
    cases hb
    exact ⟨_, rfl, .unit⟩
  | int =>
    cases ha
    cases hb
    exact ⟨_, rfl, .int⟩
  | box d ih =>
    cases ha with
    | box ha =>
      cases hb with
      | box hb =>
        obtain ⟨c, hu, hc⟩ := ih ha hb
        exact ⟨.box c, by simp [Ty.union, beneath, hu], .box hc⟩
  | borrow m ps =>
    cases ha with
    | borrow ha =>
      cases hb with
      | borrow hb =>
        refine ⟨_, Joins.borrow.union, .borrow fun p hp => ?_⟩
        exact (PlaceSet.mem_union.1 hp).elim (ha p) (hb p)
  | shadow d ih => exact union_of_peel (ih ha.peel hb.peel)
  | compound ds ih =>
    cases ha with
    | compound hla ha =>
      cases hb with
      | compound hlb hb =>
        refine union_of_components hla hlb fun i a b d ha' hb' hd => ?_
        exact ih d (List.mem_of_getElem? hd) (ha i a d ha' hd) (hb i b d hb' hd)

/-- The number of shadows around the type. -/
def shadows : Ty → Nat
  | shadow t => t.shadows + 1
  | _ => 0

theorem Below.shadows_le (h : Below le a b) : a.shadows ≤ b.shadows := by
  induction h with
  | shadow _ ih => exact Nat.succ_le_succ ih
  | hidden _ ih => exact Nat.le_succ_of_le ih
  | _ => exact Nat.zero_le _

/-- Types that lie below each other are the same. -/
theorem Under.antisymm (h : Under a b) (h' : Under b a) : a = b := by
  induction h with
  | unit => rfl
  | int => rfl
  | box _ ih =>
    cases h' with
    | box h' => rw [ih h']
  | borrow hp =>
    cases h' with
    | borrow hq => rw [PlaceSet.ext_mem fun p => ⟨hp p, hq p⟩]
  | shadow h ih =>
    cases h' with
    | shadow h' => rw [ih h']
    | hidden h' =>
      have := h.shadows_le
      have := h'.shadows_le
      simp only [shadows] at *
      omega
  | hidden h =>
    have := h.shadows_le
    have := h'.shadows_le
    simp only [shadows] at *
    omega
  | compound hl _ ih =>
    cases h' with
    | compound hl' h' =>
      refine congrArg compound (List.ext_getElem? fun i => ?_)
      rename_i as bs _
      cases ha : as[i]? with
      | none =>
        rw [List.getElem?_eq_none_iff] at ha
        rw [List.getElem?_eq_none (by omega)]
      | some a =>
        obtain ⟨b, hb⟩ := Refines.exists_getElem? hl ha
        rw [hb, ih i a b ha hb (h' i b a hb ha)]

end Ty

/-! ### Unions over places -/

variable {le : PlaceSet → PlaceSet → Prop} {f g : Place → Except Violation Ty}
variable {joined joined' : Option Ty} {places places' : List Place} {T D u v : Ty} {p : Place}

/-- One more type is joined to what there is. -/
theorem unionOver_cons (h : unionOver f joined (p :: places) = .ok T) :
    ∃ u v, f p = .ok u ∧ unionOver f (some v) places = .ok T ∧
      (joined = none ∧ v = u ∨ ∃ w, joined = some w ∧ w.union u = some v) := by
  rw [unionOver, Traced.bind_eq_ok] at h
  obtain ⟨u, hu, h⟩ := h
  cases joined with
  | none => exact ⟨u, u, hu, h, .inl ⟨rfl, rfl⟩⟩
  | some w =>
    simp only at h
    cases hv : w.union u with
    | none =>
      rw [hv] at h
      cases h
    | some v =>
      rw [hv] at h
      exact ⟨u, v, hu, h, .inr ⟨w, rfl, hv⟩⟩

/-- **A union over places lies above the type of each of them.** -/
theorem under_of_unionOver (h : unionOver f joined places = .ok T) :
    (∀ u, joined = some u → u.Under T) ∧ ∀ p ∈ places, ∃ u, f p = .ok u ∧ u.Under T := by
  induction places generalizing joined with
  | nil =>
    cases h
    refine ⟨?_, nofun⟩
    rintro u rfl
    exact .refl u
  | cons p ps ih =>
    obtain ⟨u, v, hu, h, hv⟩ := unionOver_cons h
    obtain ⟨hj, hps⟩ := ih h
    have hvT : v.Under T := hj v rfl
    have huT : u.Under T ∧ ∀ w, joined = some w → w.Under T := by
      rcases hv with ⟨rfl, rfl⟩ | ⟨w, rfl, hw⟩
      · exact ⟨hvT, nofun⟩
      · obtain ⟨hwv, huv⟩ := Ty.under_of_union hw
        refine ⟨huv.trans hvT, ?_⟩
        rintro _ ⟨⟩
        exact hwv.trans hvT
    refine ⟨huT.2, fun q hq => ?_⟩
    rcases List.mem_cons.1 hq with rfl | hq
    · exact ⟨u, hu, huT.1⟩
    · exact hps q hq

/-- **There is a union over places whose types have an upper bound**, and it lies below the
bound. -/
theorem exists_unionOver_under (hj : ∀ u, joined = some u → u.Under D)
    (hp : ∀ p ∈ places, ∃ u, f p = .ok u ∧ u.Under D) (hne : joined ≠ none ∨ places ≠ []) :
    ∃ T, unionOver f joined places = .ok T ∧ T.Under D := by
  induction places generalizing joined with
  | nil =>
    cases joined with
    | none => simp at hne
    | some u => exact ⟨u, rfl, hj u rfl⟩
  | cons p ps ih =>
    obtain ⟨u, hu, huD⟩ := hp p List.mem_cons_self
    have hps : ∀ q ∈ ps, ∃ u, f q = .ok u ∧ u.Under D :=
      fun q hq => hp q (List.mem_cons_of_mem _ hq)
    rw [unionOver, hu, Traced.ok_bind]
    cases joined with
    | none => exact ih (by rintro _ ⟨⟩; exact huD) hps (.inl (Option.some_ne_none _))
    | some v =>
      obtain ⟨w, hw, hwD⟩ := Ty.exists_union (hj v rfl) huD
      simp only [hw]
      exact ih (by rintro _ ⟨⟩; exact hwD) hps (.inl (Option.some_ne_none _))

/-- **The order of the places does not matter**, nor how often each of them comes. -/
theorem unionOver_of_mem_iff (h : unionOver f none places = .ok T)
    (hp : ∀ p, p ∈ places' ↔ p ∈ places) : unionOver f none places' = .ok T := by
  rcases List.eq_nil_or_concat' places with rfl | hne
  · rw [List.eq_nil_iff_forall_not_mem.2 fun p hm => List.not_mem_nil ((hp p).1 hm)]
    exact h
  · have hne : places ≠ [] := by
      obtain ⟨_, _, rfl⟩ := hne
      simp
    have hne' : places' ≠ [] := by
      obtain ⟨p, hm⟩ := List.exists_mem_of_ne_nil _ hne
      exact List.ne_nil_of_mem ((hp p).2 hm)
    -- each of the two unions lies below the other one
    obtain ⟨-, hall⟩ := under_of_unionOver h
    obtain ⟨T', h', hT'⟩ : ∃ T', unionOver f none places' = .ok T' ∧ T'.Under _ :=
      exists_unionOver_under nofun (fun p hm => hall p ((hp p).1 hm)) (.inr hne')
    obtain ⟨-, hall'⟩ := under_of_unionOver h'
    obtain ⟨T'', h'', hT''⟩ : ∃ T'', unionOver f none places = .ok T'' ∧ T''.Under _ :=
      exists_unionOver_under nofun (fun p hm => hall' p ((hp p).2 hm)) (.inr hne)
    cases h.symm.trans h''
    rw [h', hT'.antisymm hT'']

/-- Types below others have a union below theirs. -/
theorem unionOver_below (hle : ∀ ps, le ps ps)
    (hunion : ∀ ps qs ps' qs', le ps' ps → le qs' qs → le (ps' ∪ qs') (ps ∪ qs))
    (h : unionOver f joined places = .ok T)
    (hj : joined' = none ∧ joined = none ∨
      ∃ u' u, joined' = some u' ∧ joined = some u ∧ u'.Below le u)
    (hp : ∀ p ∈ places, ∀ u, f p = .ok u → ∃ u', g p = .ok u' ∧ u'.Below le u) :
    ∃ T', unionOver g joined' places = .ok T' ∧ T'.Below le T := by
  induction places generalizing joined joined' with
  | nil =>
    cases h
    rcases hj with ⟨rfl, rfl⟩ | ⟨u', u, rfl, rfl, hu⟩
    · exact ⟨_, rfl, .refl hle _⟩
    · exact ⟨u', rfl, hu⟩
  | cons p ps ih =>
    obtain ⟨u, v, hu, hrest, hv⟩ := unionOver_cons h
    obtain ⟨u', hu', huu⟩ := hp p List.mem_cons_self u hu
    have hps : ∀ q ∈ ps, ∀ u, f q = .ok u → ∃ u', g q = .ok u' ∧ u'.Below le u :=
      fun q hq => hp q (List.mem_cons_of_mem _ hq)
    rw [unionOver, hu', Traced.ok_bind]
    rcases hj with ⟨rfl, rfl⟩ | ⟨w', w, rfl, rfl, hw⟩
    · obtain ⟨-, rfl⟩ := hv.resolve_right (by rintro ⟨_, ⟨⟩, -⟩)
      exact ih hrest (.inr ⟨u', v, rfl, rfl, huu⟩) hps
    · obtain ⟨_, ⟨⟩, hwv⟩ := hv.resolve_left (by rintro ⟨⟨⟩, -⟩)
      obtain ⟨v', hv', hvv⟩ := Ty.Below.union hunion hwv hw huu
      simp only [hv']
      exact ih hrest (.inr ⟨v', v, rfl, rfl, hvv⟩) hps

end Ownership
