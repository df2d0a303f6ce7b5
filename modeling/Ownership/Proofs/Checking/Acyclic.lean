import Mathlib.Data.Finset.Card
import Mathlib.Data.Finset.Filter
import Ownership.Proofs.Checking.Available
import Ownership.Proofs.Soundness.Straight

/-!
# Borrows that do not lead back

Places are resolved through the targets of borrows. If no variable points to itself, over however
many others (`Env.Acyclic`), every variable has a rank that is lower than those of the variables
that point to it, and no higher than the number of borrowed places. So resolving, comparing and
writing end before their bounds are met.

* `Env.Acyclic.typeOf_ends`, `compatible_ends`, `write_ends`: **nothing that follows borrows is
  endless.**
* `Env.Acyclic.of_unknotted`: a write that ties no knot (`Env.Unknotted`) makes no cycle.
-/

namespace Ownership

open Relation

variable {variance : Variance} {Γ Γ₁ Γ₂ Γ' : Env} {p q t : Place} {T a b : Ty} {s : Slot}
variable {m strong : Bool} {ps : PlaceSet} {rest : List Selector} {n : Nat} {x y : String}

/-! ### Ranks -/

namespace Env

/-- **No variable points to itself**, over however many others. -/
def Acyclic (Γ : Env) : Prop := ∀ x, ¬ TransGen Γ.Points x x

/-- What is pointed to is one of the targets. -/
theorem Points.target (h : Γ.Points x y) : y ∈ Γ.targets.map Place.name := by
  obtain ⟨s, m, t, hs, ht, rfl⟩ := h
  exact List.mem_map.2 ⟨t, List.mem_flatMap.2 ⟨s, NameMap.mem_values hs, ht.borrowed⟩, rfl⟩

open Classical in
/-- How many variables can be reached from `x`. -/
noncomputable def rank (Γ : Env) (x : String) : Nat :=
  ((Γ.targets.map Place.name).toFinset.filter fun y => TransGen Γ.Points x y).card

theorem rank_le (Γ : Env) (x : String) : Γ.rank x ≤ Γ.targets.length := by
  classical
  have hfilter : Γ.rank x ≤ (Γ.targets.map Place.name).toFinset.card := Finset.card_filter_le _ _
  have hnames : (Γ.targets.map Place.name).toFinset.card ≤ (Γ.targets.map Place.name).length :=
    List.toFinset_card_le _
  rw [List.length_map] at hnames
  omega

namespace Acyclic

/-- **The rank falls on the way.** -/
theorem rank_lt (h : Γ.Acyclic) (hxy : Γ.Points x y) : Γ.rank y < Γ.rank x := by
  classical
  refine Finset.card_lt_card (Finset.ssubset_iff_of_subset ?_ |>.2 ⟨y, ?_, ?_⟩)
  · intro z hz
    obtain ⟨hz, hyz⟩ := Finset.mem_filter.1 hz
    exact Finset.mem_filter.2 ⟨hz, .head hxy hyz⟩
  · exact Finset.mem_filter.2 ⟨List.mem_toFinset.2 hxy.target, .single hxy⟩
  · exact fun hy => h y (Finset.mem_filter.1 hy).2

theorem rank_le_of_points (h : Γ.Acyclic) (hxy : ReflTransGen Γ.Points x y) :
    Γ.rank y ≤ Γ.rank x := by
  induction hxy with
  | refl => exact Nat.le_refl _
  | tail _ hyz ih => exact (Nat.le_of_lt (h.rank_lt hyz)).trans ih

/-- No place leads back to itself. -/
theorem not_follows (h : Γ.Acyclic) (p : Place) : ¬ TransGen Γ.Follows p p := by
  intro hp
  have hpoints : TransGen Γ.Points p.name p.name := hp.lift Place.name fun _ _ h => h.points
  exact h p.name hpoints

theorem empty : Acyclic .empty := by
  intro x hx
  obtain ⟨y, ⟨s, m, t, hs, -, -⟩, -⟩ := TransGen.head'_iff.1 hx
  cases hs

/-- Fewer edges make no cycle. -/
theorem mono (h : Γ.Acyclic) (hsub : ∀ x y, Γ'.Points x y → Γ.Points x y) : Γ'.Acyclic :=
  fun x hx => h x (TransGen.mono hsub x x hx)

/-- A variable that nothing borrows from points to others. -/
theorem bind {l : Lifetime} (h : Γ.Acyclic)
    (hΓ : ∀ y s m p, Γ.get? y = some s → s.ty.Lends m p → p.name ≠ x)
    (hT : ∀ m p, T.Lends m p → p.name ≠ x) : Acyclic (Γ.insert x ⟨T, l⟩) := by
  refine acyclic_of_edges (V := (· = x)) h fun y z hyz => ?_
  obtain ⟨s, m, t, hs, ht, rfl⟩ := hyz
  rcases NameMap.get?_insert_some hs with ⟨rfl, rfl⟩ | ⟨-, hs⟩
  · -- nothing leads to the new variable
    refine .inr ⟨rfl, fun v hv hback => ?_⟩
    subst hv
    rcases ReflTransGen.cases_tail hback with hname | ⟨w, -, s', m', t', hs', ht', hname⟩
    · exact hT m t ht hname.symm
    · exact hΓ w s' m' t' hs' ht' hname
  · exact .inl ⟨s, m, t, hs, ht, rfl⟩

end Acyclic

end Env

/-! ### Types of places -/

theorem unionOver_ends {f : Place → Except Violation Ty} {joined : Option Ty} {places : List Place}
    (h : ∀ p ∈ places, f p ≠ .error .endless) : unionOver f joined places ≠ .error .endless := by
  induction places generalizing joined with
  | nil => exact nofun
  | cons p ps ih =>
    have hps : ∀ q ∈ ps, f q ≠ .error .endless := fun q hq => h q (List.mem_cons_of_mem _ hq)
    intro he
    rw [unionOver, Traced.bind_eq_error] at he
    rcases he with he | ⟨u, -, he⟩
    · exact h p List.mem_cons_self he
    · cases joined with
      | none => exact ih hps he
      | some v =>
        simp only at he
        cases hv : v.union u with
        | none =>
          rw [hv] at he
          cases he
        | some w =>
          rw [hv] at he
          exact ih hps he

theorem declared_ends : Γ.declared p ≠ .error .endless := by
  rw [Env.declared]
  cases Γ.get? p.name <;> simp

namespace Env.Acyclic

theorem typeUpTo_ends (h : Γ.Acyclic) (hn : Γ.rank p.name < n) :
    typeUpTo Γ n p ≠ .error .endless := by
  induction n generalizing p with
  | zero => omega
  | succ n ih =>
    intro he
    rw [typeUpTo, Traced.bind_eq_error] at he
    rcases he with he | ⟨s, hs, he⟩
    · exact declared_ends he
    · have hs := declared_ok.1 hs
      cases hf : s.ty.follow p.path with
      | reached u => simp [hf] at he
      | crossed m ps rest =>
        rw [hf] at he
        refine unionOver_ends (fun q hq => ?_) he
        obtain ⟨t, ht, rfl⟩ := List.mem_map.1 hq
        have hlt : Γ.rank (t.extend rest).name < Γ.rank p.name :=
          h.rank_lt ⟨s, m, t, hs, Ty.lends_of_crossed hf ht, rfl⟩
        exact ih (by omega)
      | shadowed => simp [hf] at he
      | notReference => simp [hf] at he
      | misfit => simp [hf] at he

end Env.Acyclic

/-- The bound on crossings is more than the number of targets. -/
theorem lt_crossings (weight targets : Nat) (p : Place) : targets < crossings weight targets p := by
  have hbase : 2 ≤ weight + p.path.length + 8 := by omega
  calc targets < targets + 8 := by omega
    _ < 2 ^ (targets + 8) := Nat.lt_two_pow_self
    _ ≤ (weight + p.path.length + 8) ^ (targets + 8) := Nat.pow_le_pow_left hbase _

/-- **Every place has a type, or an error that says why not.** -/
theorem Env.Acyclic.typeOf_ends (h : Γ.Acyclic) (p : Place) : typeOf Γ p ≠ .error .endless := by
  have hrank := Γ.rank_le p.name
  have hbound := lt_crossings Γ.weight Γ.targets.length p
  exact h.typeUpTo_ends (by omega)

theorem Env.Acyclic.typeOf?_ends (h : Γ.Acyclic) (p : Place) : typeOf? Γ p ≠ .error .endless := by
  have hends := h.typeOf_ends p
  rw [typeOf?]
  cases ht : typeOf Γ p with
  | ok u => simp
  | error e =>
    rw [ht] at hends
    cases e with
    | endless => exact absurd rfl hends
    | _ => simp

/-! ### Comparisons -/

theorem Ty.borrows_unshadowed (b : Ty) : b.unshadowed.borrows = b.borrows := by
  induction b with
  | shadow b ih => exact ih
  | _ => rfl

section Compare

variable {refer : Bool → PlaceSet → PlaceSet → Except Violation Bool} {as bs : List Ty}
variable {v : Violation}

theorem alikeAll_ne_error (each : ∀ a ∈ as, ∀ b ∈ bs, a.alike refer b ≠ .error v) :
    Ty.alikeAll refer as bs ≠ .error v := by
  induction as generalizing bs with
  | nil => nofun
  | cons a as ih =>
    cases bs with
    | nil => nofun
    | cons b bs =>
      intro he
      rw [Ty.alikeAll, Traced.bind_eq_error] at he
      rcases he with he | ⟨k, -, he⟩
      · exact each a List.mem_cons_self b List.mem_cons_self he
      · cases k with
        | false => cases he
        | true =>
          exact ih (fun a ha b hb => each a (List.mem_cons_of_mem _ ha) b
            (List.mem_cons_of_mem _ hb)) he

/-- A comparison fails only as one of the comparisons of borrows in the two types does. -/
theorem alike_ne_error (h : ∀ m ps qs, (m, ps) ∈ a.borrows → (m, qs) ∈ b.borrows →
      refer m ps qs ≠ .error v) : a.alike refer b ≠ .error v := by
  induction a generalizing b with
  | shadow a ih => exact ih h
  | unit =>
    rw [Ty.alike]
    cases b.unshadowed <;> simp
  | int =>
    rw [Ty.alike]
    cases b.unshadowed <;> simp
  | box a ih =>
    rw [Ty.alike]
    rw [← Ty.borrows_unshadowed b] at h
    generalize b.unshadowed = b' at h
    cases b' with
    | box b => exact ih h
    | _ => simp
  | borrow m ps =>
    rw [Ty.alike]
    rw [← Ty.borrows_unshadowed b] at h
    generalize b.unshadowed = b' at h
    cases b' with
    | borrow n qs =>
      simp only
      split
      · rename_i e
        subst e
        exact h m ps qs List.mem_cons_self List.mem_cons_self
      · simp
    | _ => simp
  | compound as ih =>
    rw [Ty.alike]
    rw [← Ty.borrows_unshadowed b] at h
    generalize b.unshadowed = b' at h
    cases b' with
    | compound bs =>
      simp only
      split
      · refine alikeAll_ne_error fun a ha b hb => ih a ha fun m ps qs hp hq => h m ps qs ?_ ?_
        · rw [Ty.borrows, Ty.allBorrows_eq]
          exact List.mem_flatMap.2 ⟨a, ha, hp⟩
        · rw [Ty.borrows, Ty.allBorrows_eq]
          exact List.mem_flatMap.2 ⟨b, hb, hq⟩
      · simp
    | _ => simp

end Compare

/-- **Why a comparison fails.** It fails to tell whether a target has a type, or the comparison of
two referents fails. -/
theorem compatibleUpTo_error {v : Violation}
    (h : compatibleUpTo variance Γ₁ Γ₂ (n + 1) a b = .error v) :
    ∃ m p q, a.Lends m p ∧ b.Lends m q ∧ (typeOf? Γ₁ p = .error v ∨ typeOf? Γ₂ q = .error v ∨
      ∃ r₁ r₂, typeOf Γ₁ p = .ok r₁ ∧ typeOf Γ₂ q = .ok r₂ ∧
        compatibleUpTo variance Γ₁ Γ₂ n r₁ r₂ = .error v) := by
  refine Classical.byContradiction fun hne => alike_ne_error (fun m ps qs hps hqs he => hne ?_) h
  cases hp : ps.first? with
  | none => simp [hp] at he
  | some p =>
    cases hq : qs.first? with
    | none => simp [hp, hq] at he
    | some q =>
      refine ⟨m, p, q, ⟨_, hps, rfl, List.mem_of_mem_head? hp⟩,
        ⟨_, hqs, rfl, List.mem_of_mem_head? hq⟩, ?_⟩
      simp only [hp, hq, Traced.bind_eq_error] at he
      obtain he | ⟨r₁, hr₁, he | ⟨r₂, hr₂, he⟩⟩ := he
      · exact .inl he
      · exact .inr (.inl he)
      · cases r₁ with
        | none => cases he
        | some r₁ =>
          cases r₂ with
          | none => cases he
          | some r₂ =>
            simp only at he
            split at he
            · cases he
            · exact .inr (.inr ⟨r₁, r₂, typeOf?_eq_some.1 hr₁, typeOf?_eq_some.1 hr₂, he⟩)

/-- The targets of all borrows in the type have a rank of less than `n` by two at least. -/
def Env.Below (Γ : Env) (n : Nat) (t : Ty) : Prop := ∀ m p, t.Lends m p → Γ.rank p.name + 2 ≤ n

/-- What the type of a place lends is of a lower rank than the place. -/
theorem Env.Acyclic.below (h : Γ.Acyclic) (ht : typeOf Γ p = .ok T) (hp : Γ.rank p.name ≤ n) :
    Γ.Below (n + 1) T := by
  intro m t hlent
  obtain ⟨x, s, ⟨q, s', u, hw, rfl, hs', hf⟩, hs, hlent⟩ := Env.lends_of_typeOf ht hlent
  have hle : Γ.rank q.name ≤ Γ.rank p.name := h.rank_le_of_points (Env.points_of_ways hw)
  have hlt : Γ.rank t.name < Γ.rank q.name := h.rank_lt ⟨s, m, t, hs, hlent, rfl⟩
  omega

/-- A comparison ends before its bound if the borrows of one of the types do. -/
theorem compatibleUpTo_ends (h₁ : Γ₁.Acyclic) (h₂ : Γ₂.Acyclic) (hn : 1 ≤ n)
    (hb : Γ₁.Below n a ∨ Γ₂.Below n b) :
    compatibleUpTo variance Γ₁ Γ₂ n a b ≠ .error .endless := by
  induction n generalizing a b with
  | zero => omega
  | succ n ih =>
    intro he
    obtain ⟨m, p, q, hp, hq, he | he | ⟨r₁, r₂, hr₁, hr₂, he⟩⟩ := compatibleUpTo_error he
    · exact h₁.typeOf?_ends p he
    · exact h₂.typeOf?_ends q he
    · -- the referents lend places of lower rank
      have hlow : 1 ≤ n ∧ (Γ₁.Below n r₁ ∨ Γ₂.Below n r₂) := by
        rcases hb with hb | hb
        · have hrank := hb m p hp
          obtain ⟨k, rfl⟩ : ∃ k, n = k + 1 := ⟨n - 1, by omega⟩
          exact ⟨by omega, .inl (h₁.below hr₁ (by omega))⟩
        · have hrank := hb m q hq
          obtain ⟨k, rfl⟩ : ∃ k, n = k + 1 := ⟨n - 1, by omega⟩
          exact ⟨by omega, .inr (h₂.below hr₂ (by omega))⟩
      exact ih hlow.1 hlow.2 he

/-- **Every comparison ends.** -/
theorem compatible_ends (h₁ : Γ₁.Acyclic) (h₂ : Γ₂.Acyclic) (a b : Ty) :
    compatible variance Γ₁ a b Γ₂ ≠ .error .endless := by
  refine compatibleUpTo_ends h₁ h₂ (by omega) ?_
  rcases Nat.eq_zero_or_pos Γ₂.targets.length with hzero | hpos
  · right
    intro m p hp
    have hrank := Γ₂.rank_le p.name
    omega
  · left
    intro m p hp
    have hrank := Γ₁.rank_le p.name
    have hmul : Γ₁.targets.length * 1 ≤ Γ₁.targets.length * Γ₂.targets.length :=
      Nat.mul_le_mul_left _ hpos
    omega

/-! ### Writes -/

namespace Env

/-- **The write ties no knot**: nothing that `T` borrows leads to a variable where a way from `p`
ends. -/
def Unknotted (Γ : Env) (p : Place) (T : Ty) : Prop :=
  ∀ m t x, T.Lends m t → ReflTransGen Γ.Points t.name x → ¬ Γ.Lands p x

/-- A variable that has grown points to what it pointed to before, or to what has been written. -/
theorem points_of_grows (hg : Grows T (Γ.Lands p) Γ Γ') (h : Γ'.Points x y) :
    Γ.Points x y ∨ Γ.Lands p x ∧ ∃ m t, T.Lends m t ∧ t.name = y := by
  obtain ⟨s', m, t, hs', ht, rfl⟩ := h
  obtain ⟨s, hs, hkept, -, -, -, hlend⟩ := hg.slot hs'
  by_cases hx : Γ.Lands p x
  · rcases hlend m t ht with ht | ht
    · exact .inl ⟨s, m, t, hs, ht, rfl⟩
    · exact .inr ⟨hx, m, t, ht, rfl⟩
  · rw [hkept hx] at ht
    exact .inl ⟨s, m, t, hs, ht, rfl⟩

/-- Edges from where a write ends to what is written make no cycle, unless they tie a knot. -/
theorem Acyclic.of_unknotted (h : Γ.Acyclic) (hu : Γ.Unknotted p T)
    (hnew : ∀ x y, Γ'.Points x y →
      Γ.Points x y ∨ Γ.Lands p x ∧ ∃ m t, T.Lends m t ∧ t.name = y) : Γ'.Acyclic := by
  refine acyclic_of_edges (V := Γ.Lands p) h fun x y hxy => ?_
  rcases hnew x y hxy with hold | ⟨hx, m, t, ht, rfl⟩
  · exact .inl hold
  · exact .inr ⟨hx, fun v hv hback => hu m t v ht hback hv⟩

/-- A variable points to others after a write if it did before, or if it has been written to. -/
theorem points_of_write (ha : Γ.Apart p) (hw : write variance Γ p T true = .ok Γ')
    (h : Γ'.Points x y) :
    Γ.Points x y ∨ Γ.Lands p x ∧ ∃ m t, T.Lends m t ∧ t.name = y := by
  obtain ⟨s', m, t, hs', ht, rfl⟩ := h
  obtain ⟨s, hs, ⟨old, hf, rfl⟩ | ⟨-, hgrow⟩⟩ := write_cases ha hw
  · rcases NameMap.get?_insert_some hs' with ⟨rfl, rfl⟩ | ⟨-, hs'⟩
    · rcases Ty.lends_replaceAt ht with ht | ht
      · exact .inl ⟨s, m, t, hs, ht, rfl⟩
      · exact .inr ⟨⟨p, s, old, .refl, rfl, hs, hf⟩, m, t, ht, rfl⟩
    · exact .inl ⟨s', m, t, hs', ht, rfl⟩
  · exact points_of_grows hgrow ⟨s', m, t, hs', ht, rfl⟩

end Env

/-- A write is endless only if it does not come to an end behind a borrow, or at one of the tests
that are made before. -/
theorem writeUpTo_endless (h : writeUpTo variance T (n + 1) strong Γ p = .error .endless) :
    typeOf Γ p = .error .endless ∨ ∃ current, typeOf Γ p = .ok current ∧
      (compatible variance Γ current T Γ = .error .endless ∨
        ∃ s ps rest, Γ.get? p.name = some s ∧ s.ty.follow p.path = .crossed true ps rest ∧
          (ps.toList.map (·.extend rest)).foldlM (writeUpTo variance T n false) Γ =
            .error .endless) := by
  obtain ⟨-, h⟩ | ⟨s, hs, ⟨-, h⟩ | h | ⟨current, ht, hcase⟩⟩ := writeUpTo_error h
  · cases h
  · cases h
  · exact .inl h
  · refine .inr ⟨current, ht, ?_⟩
    obtain h | ⟨-, h⟩ | ⟨-, ⟨ps, rest, hf, h⟩ | ⟨old, -, -, -, h⟩ | h | h | h⟩ := hcase
    · exact .inl h
    · cases h
    · exact .inr ⟨s, ps, rest, hs, hf, h⟩
    all_goals cases h

/-- Behind borrows a write ends before its bound. What it has made wider on the way ties no knot. -/
theorem writeUpTo_ends (h : Γ.Acyclic) (ha : Γ.Apart p) (hu : Γ.Unknotted p T)
    (h₁ : Env.Grows T (Γ.Lands p) Γ Γ₁) (hq : ReflTransGen Γ.Follows p q)
    (hn : Γ.rank q.name < n) : writeUpTo variance T n strong Γ₁ q ≠ .error .endless := by
  induction n generalizing Γ₁ q strong with
  | zero => omega
  | succ n ih =>
    have hacyclic : Γ₁.Acyclic := h.of_unknotted hu fun x y => Env.points_of_grows h₁
    intro he
    rcases writeUpTo_endless he with he | ⟨current, -, he | ⟨s, ps, rest, hs, hf, he⟩⟩
    · exact hacyclic.typeOf_ends q he
    · exact compatible_ends hacyclic hacyclic current T he
    · -- the variable that is passed is as it was at first, and so are the ways from it
      obtain ⟨hs₀, -⟩ := Env.Grows.passed ha h₁ hq hs hf
      have hways : ∀ r ∈ ps.toList.map (·.extend rest), Γ.Follows q r := by
        intro r hr
        obtain ⟨t, ht, rfl⟩ := List.mem_map.1 hr
        exact ⟨s, true, ps, rest, t, hs₀, hf, ht, rfl⟩
      obtain ⟨r, hr, Γ₂, h₂, hfail⟩ := foldlM_fails (I := Env.Grows T (Γ.Lands p) Γ)
        (fun r hr Γ₂ Γ₃ h₂ h₃ => h₂.trans (.of_write ha h₂ (hq.tail (hways r hr)) h₃)) h₁ he
      have hlt : Γ.rank r.name < Γ.rank q.name := h.rank_lt (hways r hr).points
      exact ih h₂ (hq.tail (hways r hr)) (by omega) hfail

/-- **Every write ends** that ties no knot. -/
theorem write_ends (h : Γ.Acyclic)
    (hp : ∀ current, typeOf Γ p = .ok current → Γ.Apart p ∧ Γ.Unknotted p T) :
    write variance Γ p T strong ≠ .error .endless := by
  have hrank := Γ.rank_le p.name
  have hbound := lt_crossings (Γ.weight + T.weight) (Γ.targets.length + T.borrowed.length) p
  rw [write]
  generalize crossings _ _ p = n at hbound ⊢
  intro he
  cases n with
  | zero => omega
  | succ n =>
    rcases writeUpTo_endless he with hfail | ⟨current, ht, -⟩
    · exact h.typeOf_ends p hfail
    · obtain ⟨ha, hu⟩ := hp current ht
      exact writeUpTo_ends h ha hu (.refl Γ) .refl (by omega) he

end Ownership
