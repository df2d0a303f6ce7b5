import Mathlib.Algebra.Group.Nat.Defs
import Ownership.Proofs.Checking.Available
import Ownership.Proofs.Checking.Unions

/-!
# Bounds that are never met

A place is resolved, and a write goes on, for as many borrows in a row as `crossings` says. If more
are crossed there is no end: a place that has a type at all has it within the bound
(`typeOf_of_typeUpTo`), and likewise a write (`write_of_writeUpTo`).

What is left of a path while it is followed is cut into the parts that are left of each target on
the way (`Stretch`), the target crossed last in front. Behind each target there is a way to the
place that is looked at, so no target occurs twice: it would lead back to itself, and there would be
no end. A borrow that is crossed takes a selector off one stretch and puts a target in front of it,
as one more stretch. So a budget falls in which a selector weighs more than all stretches above it
can (`Env.Nests.step`).

* `typeOf_of_typeUpTo`: **a place that has a type has it within the bound.**
* `write_of_writeUpTo`: **a write of something whole that ends ends within the bound.**
-/

namespace Ownership

open Relation

variable {variance : Variance} {Γ Γ₁ Γ₂ Γ' Δ : Env} {p q t : Place} {T ty u : Ty} {s : Slot}
variable {m strong : Bool} {ps : PlaceSet} {π ρ rest : List Selector} {n k w N : Nat} {x : String}
variable {f g : Place → Except Violation Ty} {joined : Option Ty} {places : List Place}
variable {r r' : Except Violation Ty}

/-! ### More crossings -/

theorem unionOver_congr (hfg : ∀ p ∈ places, ∀ u, f p = .ok u → g p = .ok u)
    (h : unionOver f joined places = .ok T) : unionOver g joined places = .ok T := by
  induction places generalizing joined with
  | nil => exact h
  | cons p ps ih =>
    obtain ⟨u, v, hu, hrest, hv⟩ := unionOver_cons h
    have hps := ih (fun q hq => hfg q (List.mem_cons_of_mem _ hq)) hrest
    rw [unionOver, hfg p List.mem_cons_self u hu, Traced.ok_bind]
    rcases hv with ⟨rfl, rfl⟩ | ⟨v', rfl, hv⟩
    · exact hps
    · simp only [hv]
      exact hps

/-- The result is the same as `r'`, or it has not been found under its bound. -/
def Approximates (r r' : Except Violation Ty) : Prop := r = .error .endless ∨ r = r'

namespace Approximates

theorem of_eq (h : r = r') : Approximates r r' := .inr h

theorem antisymm (h : Approximates r r') (h' : Approximates r' r) : r = r' := by
  rcases h with rfl | rfl
  · rcases h' with rfl | rfl <;> rfl
  · rfl

theorem unionOver (h : ∀ p ∈ places, Approximates (f p) (g p)) :
    Approximates (unionOver f joined places) (unionOver g joined places) := by
  induction places generalizing joined with
  | nil => exact .of_eq rfl
  | cons p ps ih =>
    have hps : ∀ joined,
        Approximates (Ownership.unionOver f joined ps) (Ownership.unionOver g joined ps) :=
      fun _ => ih fun q hq => h q (List.mem_cons_of_mem _ hq)
    rw [Ownership.unionOver, Ownership.unionOver]
    rcases h p List.mem_cons_self with e | e
    · rw [e]
      exact .inl rfl
    · rw [e]
      cases g p with
      | error v => exact .of_eq rfl
      | ok t =>
        cases joined with
        | none => exact hps (some t)
        | some u =>
          simp only [Traced.ok_bind]
          cases u.union t with
          | none => exact .of_eq rfl
          | some v => exact hps (some v)

/-- **A place has under a higher bound what it has under a lower one**, be it a type or none. -/
theorem typeUpTo (hn : n ≤ k) : Approximates (typeUpTo Γ n p) (typeUpTo Γ k p) := by
  induction n generalizing p k with
  | zero => exact .inl rfl
  | succ n ih =>
    obtain ⟨k, rfl⟩ : ∃ k', k = k' + 1 := ⟨k - 1, by omega⟩
    rw [Ownership.typeUpTo, Ownership.typeUpTo]
    cases Γ.declared p with
    | error v => exact .of_eq rfl
    | ok s =>
      simp only [Traced.ok_bind]
      cases s.ty.follow p.path with
      | crossed m ps rest => exact .unionOver fun q _ => ih (by omega)
      | _ => exact .of_eq rfl

end Approximates

/-- **A type is found under any higher bound.** -/
theorem typeUpTo_mono (h : typeUpTo Γ n p = .ok T) (hn : n ≤ k) : typeUpTo Γ k p = .ok T := by
  rcases Approximates.typeUpTo (p := p) (Γ := Γ) hn with e | e
  · rw [h] at e
    cases e
  · rw [← e, h]

/-- All that a place leads on to has a type, under a lower bound. -/
theorem Env.Follows.typeUpTo (hpq : Γ.Follows p q) (h : typeUpTo Γ (n + 1) p = .ok T) :
    ∃ u, typeUpTo Γ n q = .ok u := by
  obtain ⟨s, m, ps, rest, t, hs, hf, ht, rfl⟩ := hpq
  rw [typeUpTo_of_crossed hs hf] at h
  obtain ⟨u, hu, -⟩ := (under_of_unionOver h).2 _ (List.mem_map.2 ⟨t, ht, rfl⟩)
  exact ⟨u, hu⟩

/-! ### Loops -/

theorem Place.extend_extend (p : Place) (π ρ : List Selector) :
    (p.extend π).extend ρ = p.extend (π ++ ρ) := by
  simp [extend, List.append_assoc]

namespace Ty

/-- What is behind the place where a borrow is crossed may be taken off. -/
theorem crossed_of_append {a : Ty} (h : a.follow (π ++ ρ) = .crossed m ps (rest ++ ρ)) :
    a.follow π = .crossed m ps rest := by
  induction π generalizing a with
  | nil =>
    have := length_of_crossed h
    simp only [List.nil_append, List.length_append] at this
    omega
  | cons b π ih =>
    cases a with
    | box a =>
      cases b with
      | deref => exact ih (a := a) h
      | index i => cases h
    | borrow n qs =>
      cases b with
      | deref =>
        simp only [List.cons_append, follow, Walk.crossed.injEq, List.append_cancel_right_eq] at h
        obtain ⟨rfl, rfl, rfl⟩ := h
        rfl
      | index i => cases h
    | compound as =>
      cases b with
      | deref => cases h
      | index i =>
        simp only [List.cons_append, follow] at h ⊢
        split at h
        · exact ih h
        · cases h
    | _ => cases b <;> cases h

end Ty

namespace Env

/-- A way goes on for what is behind each of its places. -/
theorem Follows.extend (h : Γ.Follows p q) (ρ : List Selector) :
    Γ.Follows (p.extend ρ) (q.extend ρ) := by
  obtain ⟨s, m, ps, rest, t, hs, hf, ht, rfl⟩ := h
  exact ⟨s, m, ps, rest ++ ρ, t, hs, Ty.follow_append_of_crossed hf, ht, t.extend_extend rest ρ⟩

/-- **A place that leads back to itself has no type**, and neither has what is behind it. -/
theorem untyped_of_loop (h : TransGen Γ.Follows t (t.extend π)) :
    typeUpTo Γ n (t.extend ρ) ≠ .ok T := by
  have down : ∀ {p q : Place} {n : Nat} {T : Ty}, TransGen Γ.Follows p q →
      typeUpTo Γ n p = .ok T → ∃ k u, k < n ∧ typeUpTo Γ k q = .ok u := by
    intro p q n T hpq
    induction hpq generalizing n T with
    | single hq =>
      intro hp
      cases n with
      | zero => cases hp
      | succ n =>
        obtain ⟨u, hu⟩ := hq.typeUpTo hp
        exact ⟨n, u, Nat.lt_succ_self n, hu⟩
    | tail _ hq ih =>
      intro hp
      obtain ⟨k, u, hk, hu⟩ := ih hp
      cases k with
      | zero => cases hu
      | succ k =>
        obtain ⟨v, hv⟩ := hq.typeUpTo hu
        exact ⟨k, v, by omega, hv⟩
  induction n using Nat.strongRecOn generalizing ρ T with
  | _ n ih =>
    intro hp
    have hloop : TransGen Γ.Follows (t.extend ρ) (t.extend (π ++ ρ)) := by
      rw [← Place.extend_extend]
      exact h.lift (·.extend ρ) fun _ _ hq => hq.extend ρ
    obtain ⟨k, u, hk, hu⟩ := down hloop hp
    exact ih k hk hu

/-! ### What is left of the targets -/

end Env

/-- A target that has been crossed, and what is left of its path. -/
abbrev Stretch := Place × List Selector

namespace Stretch

/-- The path that the stretches are cut from. -/
def path (fs : List Stretch) : List Selector := fs.flatMap Prod.snd

/-- The weight of a selector that has room for `k` stretches above it, of `w` selectors each. -/
def cost (w : Nat) : Nat → Nat
  | 0 => 1
  | k + 1 => w * cost w k + 1

/-- The weight of all selectors, where there is room for `N` stretches above the last one. -/
def budget (w N : Nat) : List Stretch → Nat
  | [] => 0
  | f :: fs => f.2.length * cost w (N - fs.length) + budget w N fs

theorem path_append (fs gs : List Stretch) : path (fs ++ gs) = path fs ++ path gs := by simp [path]

theorem path_cons (f : Stretch) (fs : List Stretch) : path (f :: fs) = f.2 ++ path fs := by
  simp [path]

theorem budget_append (w N : Nat) (fs gs : List Stretch) :
    budget w N gs ≤ budget w N (fs ++ gs) := by
  induction fs with
  | nil => exact Nat.le_refl _
  | cons f fs ih => exact Nat.le_trans ih (Nat.le_add_left ..)

/-- A shorter end of the path begins inside of one of the stretches. -/
theorem split {fs : List Stretch} (h : rest <:+ path fs) (hlt : rest.length < (path fs).length) :
    ∃ above f below σ, fs = above ++ f :: below ∧ σ.length < f.2.length ∧
      rest = σ ++ path below := by
  induction fs with
  | nil => simp [path] at hlt
  | cons f fs ih =>
    rw [path_cons] at h hlt
    rcases Nat.lt_or_ge rest.length (path fs).length with hr | hr
    · have hsuffix : rest <:+ path fs :=
        List.suffix_of_suffix_length_le h (List.suffix_append ..) (Nat.le_of_lt hr)
      obtain ⟨above, g, below, σ, rfl, hσ, e⟩ := ih hsuffix hr
      exact ⟨f :: above, g, below, σ, rfl, hσ, e⟩
    · obtain ⟨σ, rfl⟩ : path fs <:+ rest :=
        List.suffix_of_suffix_length_le (List.suffix_append ..) h hr
      refine ⟨[], f, fs, σ, rfl, ?_, rfl⟩
      simp only [List.length_append] at hlt
      omega

theorem cost_le (w k : Nat) : cost w k ≤ (w + 1) ^ k := by
  induction k with
  | zero => simp [cost]
  | succ k ih =>
    have hpos := Nat.one_le_pow k (w + 1) (Nat.succ_pos w)
    calc w * cost w k + 1 ≤ w * (w + 1) ^ k + (w + 1) ^ k :=
          Nat.add_le_add (Nat.mul_le_mul_left w ih) hpos
      _ = (w + 1) ^ (k + 1) := by rw [Nat.pow_succ, Nat.mul_succ, Nat.mul_comm w]

/-- A selector weighs more than a target that is put in front of it. -/
theorem budget_lt {t : Place} {f : Stretch} {fs : List Stretch} {σ : List Selector}
    (hfs : fs.length + 1 ≤ N) (hw : t.path.length ≤ w) (hσ : σ.length < f.2.length) :
    budget w N ((t, t.path) :: (f.1, σ) :: fs) < budget w N (f :: fs) := by
  obtain ⟨k, hk⟩ : ∃ k, N - fs.length = k + 1 := ⟨N - fs.length - 1, by omega⟩
  have hk' : N - (fs.length + 1) = k := by omega
  simp only [budget, List.length_cons, hk, hk', cost]
  calc t.path.length * cost w k + (σ.length * (w * cost w k + 1) + budget w N fs)
      ≤ w * cost w k + (σ.length * (w * cost w k + 1) + budget w N fs) :=
        Nat.add_le_add_right (Nat.mul_le_mul_right _ hw) _
    _ < (σ.length + 1) * (w * cost w k + 1) + budget w N fs := by
        rw [Nat.succ_mul]
        omega
    _ ≤ f.2.length * (w * cost w k + 1) + budget w N fs :=
        Nat.add_le_add_right (Nat.mul_le_mul_right _ hσ) _

end Stretch

namespace Env

/-- Each stretch's target leads on to the place in `x` that is left when what is behind it is
taken off, where `π` is in front of all of them. -/
inductive Trails (Γ : Env) (x : String) : List Selector → List Stretch → Prop where
  | nil {π : List Selector} : Trails Γ x π []
  | cons {π : List Selector} {f : Stretch} {fs : List Stretch} :
      ReflTransGen Γ.Follows f.1 ⟨x, π ++ f.2⟩ → Trails Γ x (π ++ f.2) fs → Trails Γ x π (f :: fs)

namespace Trails

variable {fs above : List Stretch} {f : Stretch} {y : String}

theorem drop (h : Γ.Trails x π (above ++ fs)) : Γ.Trails x (π ++ Stretch.path above) fs := by
  induction above generalizing π with
  | nil => simpa [Stretch.path] using h
  | cons f above ih =>
    cases h with
    | cons _ h =>
      rw [Stretch.path_cons, ← List.append_assoc]
      exact ih h

theorem mem (h : Γ.Trails x π fs) (hf : f ∈ fs) :
    ∃ ρ, ReflTransGen Γ.Follows f.1 ⟨x, π ++ ρ⟩ := by
  induction h with
  | nil => cases hf
  | @cons π g fs hg _ ih =>
    rcases List.mem_cons.1 hf with rfl | hf
    · exact ⟨f.2, hg⟩
    · obtain ⟨ρ, hρ⟩ := ih hf
      exact ⟨g.2 ++ ρ, by rwa [← List.append_assoc]⟩

/-- The place in `x` leads on to one in `y`, whatever is behind it. -/
theorem step (h : Γ.Trails x π fs) (hstep : ∀ τ, Γ.Follows ⟨x, π ++ τ⟩ ⟨y, ρ ++ τ⟩) :
    Γ.Trails y ρ fs := by
  induction h generalizing ρ with
  | nil => exact .nil
  | @cons π f fs hf _ ih =>
    refine .cons (hf.tail (hstep f.2)) (ih fun τ => ?_)
    rw [List.append_assoc, List.append_assoc]
    exact hstep (f.2 ++ τ)

theorem mono (h : Γ.Trails x π fs) (hsub : ∀ p q, Γ.Follows p q → Γ'.Follows p q) :
    Γ'.Trails x π fs := by
  induction h with
  | nil => exact .nil
  | cons hf _ ih => exact .cons (ReflTransGen.mono hsub _ _ hf) ih

end Trails

/-- **The stretches are what is left on the way to a place in `x`.** Their targets are distinct and
among `ts`, and each of them leads on to the place. -/
structure Nests (ts : List Place) (Γ : Env) (x : String) (fs : List Stretch) : Prop where
  distinct : (fs.map Prod.fst).Nodup
  among : ∀ f ∈ fs, f.1 ∈ ts
  trails : Γ.Trails x [] fs

namespace Nests

variable {ts : List Place} {fs : List Stretch}

/-- A place begins as the one stretch of itself. -/
theorem single (hp : p ∈ ts) : Nests ts Γ p.name [(p, p.path)] where
  distinct := by simp
  among := by
    rintro f hf
    cases List.mem_singleton.1 hf
    exact hp
  trails := .cons .refl .nil

/-- Ways are kept if borrows only get more targets. -/
theorem mono (h : Nests ts Γ x fs) (hsub : ∀ p q, Γ.Follows p q → Γ'.Follows p q) :
    Nests ts Γ' x fs := ⟨h.distinct, h.among, h.trails.mono hsub⟩

theorem length_le (h : Nests ts Γ x fs) : fs.length ≤ ts.length := by
  have hsub : (fs.map Prod.fst).Subperm ts := h.distinct.subperm fun t ht => by
    obtain ⟨f, hf, rfl⟩ := List.mem_map.1 ht
    exact h.among f hf
  simpa using hsub.length_le

/-- **A borrow is crossed at a lower budget**, if there is an end. -/
theorem step (h : Nests ts Γ x fs) (hN : ts.length ≤ N + 1)
    (hok : typeUpTo Γ n ⟨x, Stretch.path fs⟩ = .ok T) (hs : Γ.get? x = some s)
    (hf : s.ty.follow (Stretch.path fs) = .crossed m ps rest) (ht : t ∈ ps) (hts : t ∈ ts)
    (hw : t.path.length ≤ w) :
    ∃ fs', Nests ts Γ t.name fs' ∧ t.extend rest = ⟨t.name, Stretch.path fs'⟩ ∧
      Stretch.budget w N fs' < Stretch.budget w N fs := by
  obtain ⟨above, f, below, σ, rfl, hσ, rfl⟩ :=
    Stretch.split (Ty.suffix_of_crossed hf) (Ty.length_of_crossed hf)
  -- the borrow is crossed after the stretches above and a part of `f`, whatever comes then
  have hfront : s.ty.follow (Stretch.path above ++ f.2) = .crossed m ps σ := by
    refine Ty.crossed_of_append (ρ := Stretch.path below) ?_
    rwa [List.append_assoc, ← Stretch.path_cons, ← Stretch.path_append]
  have hstep : ∀ τ, Γ.Follows ⟨x, (Stretch.path above ++ f.2) ++ τ⟩ ⟨t.name, (t.path ++ σ) ++ τ⟩ :=
    fun τ => ⟨s, m, ps, σ ++ τ, t, hs, Ty.follow_append_of_crossed hfront, ht, by
      simp [Place.extend, List.append_assoc]⟩
  have htrails := h.trails.drop
  rw [List.nil_append] at htrails
  obtain ⟨hfirst, hbelow⟩ : ReflTransGen Γ.Follows f.1 ⟨x, Stretch.path above ++ f.2⟩ ∧
      Γ.Trails x (Stretch.path above ++ f.2) below := by
    cases htrails with
    | cons hf h => exact ⟨hf, h⟩
  have hchild : ∃ k u, typeUpTo Γ k (t.extend (σ ++ Stretch.path below)) = .ok u := by
    cases n with
    | zero => cases hok
    | succ n => exact ⟨n, Follows.typeUpTo ⟨s, m, ps, _, t, hs, hf, ht, rfl⟩ hok⟩
  have hnew : t ∉ (f :: below).map Prod.fst := by
    intro hmem
    obtain ⟨g, hg, rfl⟩ := List.mem_map.1 hmem
    have hloop : ∃ τ, ReflTransGen Γ.Follows g.1 ⟨x, (Stretch.path above ++ f.2) ++ τ⟩ := by
      rcases List.mem_cons.1 hg with rfl | hg
      · exact ⟨[], by rwa [List.append_nil]⟩
      · exact hbelow.mem hg
    obtain ⟨τ, hτ⟩ := hloop
    obtain ⟨k, u, hu⟩ := hchild
    refine untyped_of_loop (t := g.1) (π := σ ++ τ) (.tail' hτ ?_) hu
    simpa [Place.extend, List.append_assoc] using hstep τ
  -- one stretch for the target, and what is left of `f` under it
  have hnext : Nests ts Γ t.name ((t, t.path) :: (f.1, σ) :: below) := by
    refine ⟨?_, ?_, .cons .refl (.cons ?_ ?_)⟩
    · have hd := h.distinct
      rw [List.map_append] at hd
      exact List.nodup_cons.2 ⟨hnew, (List.nodup_append.1 hd).2.1⟩
    · rintro g hg
      rcases List.mem_cons.1 hg with rfl | hg
      · exact hts
      · rcases List.mem_cons.1 hg with rfl | hg
        · exact h.among f (by simp)
        · exact h.among g (by simp [hg])
    · simpa using hfirst.tail (by simpa using hstep [])
    · simpa using hbelow.step hstep
  refine ⟨_, hnext, by simp [Place.extend, Stretch.path_cons], ?_⟩
  have hlen := hnext.length_le
  rw [List.length_cons, List.length_cons] at hlen
  exact Nat.lt_of_lt_of_le (Stretch.budget_lt (by omega) hw hσ) (Stretch.budget_append ..)

end Nests

/-! ### Types of places -/

theorem mem_targets (hs : Γ.get? x = some s) (ht : s.ty.Lends m t) : t ∈ Γ.targets :=
  List.mem_flatMap.2 ⟨s, NameMap.mem_values hs, ht.borrowed⟩

/-- A place is resolved within the budget of its stretches. -/
theorem Nests.typeUpTo {ts : List Place} {fs : List Stretch} (h : Nests ts Γ x fs)
    (hN : ts.length ≤ N + 1) (hts : ∀ t ∈ Γ.targets, t ∈ ts ∧ t.path.length ≤ w)
    (hok : typeUpTo Γ n ⟨x, Stretch.path fs⟩ = .ok T) :
    typeUpTo Γ (Stretch.budget w N fs + 1) ⟨x, Stretch.path fs⟩ = .ok T := by
  induction n generalizing x fs T with
  | zero => cases hok
  | succ n ih =>
    obtain ⟨s, hs, hf | ⟨m, ps, rest, hf, hu⟩⟩ := typeUpTo_ok hok
    · exact typeUpTo_of_reached hs hf
    · rw [typeUpTo_of_crossed hs hf]
      refine unionOver_congr (fun q hq u hq' => ?_) hu
      obtain ⟨t, ht, rfl⟩ := List.mem_map.1 hq
      obtain ⟨htm, htw⟩ := hts t (mem_targets hs (Ty.lends_of_crossed hf ht))
      obtain ⟨fs', hfs', e, hlt⟩ := h.step hN hok hs hf ht htm htw
      rw [e] at hq' ⊢
      exact typeUpTo_mono (ih hfs' hq') hlt

end Env

/-- The bound on crossings is above the budget of a place that has not been followed yet. -/
theorem budget_lt_crossings (w N : Nat) (p : Place) :
    Stretch.budget w N [(p, p.path)] < crossings w N p := by
  have hpos : 1 ≤ (w + 1) ^ N := Nat.one_le_pow _ _ (Nat.succ_pos w)
  have hbase : w + 1 ≤ w + p.path.length + 8 := by omega
  calc Stretch.budget w N [(p, p.path)]
    _ = p.path.length * Stretch.cost w N := by simp [Stretch.budget]
    _ ≤ p.path.length * (w + 1) ^ N := Nat.mul_le_mul_left _ (Stretch.cost_le w N)
    _ < (p.path.length + 1) * (w + 1) ^ N := by
        rw [Nat.succ_mul]
        omega
    _ ≤ (w + p.path.length + 8) * (w + p.path.length + 8) ^ N :=
        Nat.mul_le_mul (by omega) (Nat.pow_le_pow_left hbase N)
    _ = (w + p.path.length + 8) ^ (N + 1) := (Nat.pow_succ').symm
    _ ≤ (w + p.path.length + 8) ^ (N + 8) := Nat.pow_le_pow_right (by omega) (by omega)

/-! ### Weights -/

/-- A sum is no less than what it starts with, and than each of its summands. -/
theorem le_foldl {α : Type} {f : α → Nat} {g : Nat → α → Nat} (hg : ∀ n a, n ≤ g n a)
    (hf : ∀ n a, f a ≤ g n a) (as : List α) (n : Nat) :
    n ≤ as.foldl g n ∧ ∀ a ∈ as, f a ≤ as.foldl g n := by
  induction as generalizing n with
  | nil => exact ⟨Nat.le_refl n, nofun⟩
  | cons a as ih =>
    obtain ⟨hn, has⟩ := ih (g n a)
    refine ⟨Nat.le_trans (hg n a) hn, fun b hb => ?_⟩
    rcases List.mem_cons.1 hb with rfl | hb
    · exact Nat.le_trans (hf n b) hn
    · exact has b hb

theorem Ty.weight_le_totalWeight {T : Ty} {Ts : List Ty} (h : T ∈ Ts) :
    T.weight ≤ totalWeight Ts := by
  induction Ts with
  | nil => cases h
  | cons U Ts ih =>
    rw [totalWeight]
    rcases List.mem_cons.1 h with rfl | h
    · omega
    · have := ih h
      omega

/-- A type weighs as much as the path of any place that it lends. -/
theorem Ty.Lends.length_le_weight {T : Ty} (h : T.Lends m t) : t.path.length ≤ T.weight := by
  induction T with
  | unit => simp at h
  | int => simp at h
  | box T ih => exact Nat.le_succ_of_le (ih (lends_box.1 h))
  | shadow T ih => exact Nat.le_succ_of_le (ih (lends_shadow.1 h))
  | borrow k ps =>
    have hsum := (le_foldl (f := fun p : Place => p.path.length)
      (g := fun n p => n + p.path.length + 1) (by omega) (by omega) ps.toList 1).2
    exact hsum t (lends_borrow.1 h).2
  | compound Ts ih =>
    obtain ⟨T, hT, h⟩ := lends_compound.1 h
    exact Nat.le_trans (ih T hT h) (Nat.le_succ_of_le (weight_le_totalWeight hT))

namespace Env

theorem length_le_weight (h : t ∈ Γ.targets) : t.path.length ≤ Γ.weight := by
  obtain ⟨s, hs, ht⟩ := List.mem_flatMap.1 h
  obtain ⟨m, ht⟩ := Ty.mem_borrowed.1 ht
  have hsum := (le_foldl (f := fun s : Slot => s.ty.weight) (g := fun n s => n + s.ty.weight)
    (by omega) (by omega) Γ.values 0).2
  exact Nat.le_trans ht.length_le_weight (hsum s hs)

end Env

/-- **A place that has a type has it within the bound.** -/
theorem typeOf_of_typeUpTo (h : typeUpTo Γ n p = .ok T) : typeOf Γ p = .ok T := by
  have hfirst : Env.Nests (p :: Γ.targets) Γ p.name [(p, p.path)] := .single List.mem_cons_self
  have hpath : Stretch.path [(p, p.path)] = p.path := by simp [Stretch.path]
  have hbudget := hfirst.typeUpTo (N := Γ.targets.length) (w := Γ.weight) (by simp)
    (fun t ht => ⟨List.mem_cons_of_mem _ ht, Env.length_le_weight ht⟩) (by rw [hpath]; exact h)
  rw [hpath] at hbudget
  exact typeUpTo_mono hbudget (budget_lt_crossings ..)

/-- The bound of `typeOf` does not matter. -/
theorem typeOf_ok : typeOf Γ p = .ok T ↔ ∃ n, typeUpTo Γ n p = .ok T :=
  ⟨fun h => ⟨_, h⟩, fun ⟨_, h⟩ => typeOf_of_typeUpTo h⟩

/-! ### Writes -/

theorem writeUpTo_of_reached {old new : Ty} (ha : Admits variance Γ p ty s)
    (hf : s.ty.follow p.path = .reached old)
    (hnew : (strong = true ∧ new = ty) ∨ (strong = false ∧ old.union ty = some new)) :
    writeUpTo variance ty (n + 1) strong Γ p =
      .ok (Γ.insert p.name ⟨s.ty.replaceAt p.path new, s.lifetime⟩) := by
  obtain ⟨current, ht, hc⟩ := ha.compatible
  rw [writeUpTo, declared_ok.2 ha.slot, Traced.ok_bind]
  simp only [ha.within, ht, hc, hf, Bool.not_true, Bool.false_eq_true, if_false, Traced.ok_bind]
  rcases hnew with ⟨rfl, rfl⟩ | ⟨rfl, hu⟩
  · rfl
  · simp only [hu]
    rfl

theorem writeUpTo_of_crossed (ha : Admits variance Γ p ty s)
    (hf : s.ty.follow p.path = .crossed true ps rest)
    (h : (ps.toList.map (·.extend rest)).foldlM (writeUpTo variance ty n false) Γ = .ok Γ₁) :
    writeUpTo variance ty (n + 1) strong Γ p = .ok (Γ₁.insert p.name s) := by
  obtain ⟨current, ht, hc⟩ := ha.compatible
  rw [writeUpTo, declared_ok.2 ha.slot, Traced.ok_bind]
  simp only [ha.within, ht, hc, hf, h, Bool.not_true, Bool.false_eq_true, if_false, Traced.ok_bind]
  rfl

/-- A fold does what another one does whose steps do the same. -/
theorem foldlM_congr {α β ε : Type} {f g : β → α → Except ε β} {I : β → Prop} {as : List α}
    {b b' : β} (step : ∀ a ∈ as, ∀ b b', I b → f b a = .ok b' → I b' ∧ g b a = .ok b') (hb : I b)
    (h : as.foldlM f b = .ok b') : as.foldlM g b = .ok b' := by
  induction as generalizing b with
  | nil => exact h
  | cons a as ih =>
    rw [List.foldlM_cons, Traced.bind_eq_ok] at h ⊢
    obtain ⟨b₁, h₁, h⟩ := h
    obtain ⟨hb₁, hg⟩ := step a List.mem_cons_self b b₁ hb h₁
    exact ⟨b₁, hg, ih (fun a ha => step a (List.mem_cons_of_mem _ ha)) hb₁ h⟩

/-- **A write ends under any higher bound.** -/
theorem writeUpTo_mono (h : writeUpTo variance ty n strong Γ p = .ok Γ') (hn : n ≤ k) :
    writeUpTo variance ty k strong Γ p = .ok Γ' := by
  induction n generalizing strong Γ p Γ' k with
  | zero => cases h
  | succ n ih =>
    obtain ⟨k, rfl⟩ : ∃ k', k = k' + 1 := ⟨k - 1, by omega⟩
    obtain ⟨s, ha, ⟨old, new, hf, rfl, hnew⟩ | ⟨ps, rest, Γ₁, hf, hfold, rfl⟩⟩ := writeUpTo_ok h
    · exact writeUpTo_of_reached ha hf hnew
    · refine writeUpTo_of_crossed ha hf ?_
      exact foldlM_congr (I := fun _ => True) (fun q _ Δ Δ' _ hq => ⟨trivial, ih hq (by omega)⟩)
        trivial hfold

namespace Env

/-- The environment has all ways of `Γ`, and lends only places for which `Q` holds. -/
structure Spreads (Γ : Env) (Q : Place → Prop) (Δ : Env) : Prop where
  follows : ∀ p q, Γ.Follows p q → Δ.Follows p q
  lends : ∀ t ∈ Δ.targets, Q t

/-- A write behind a borrow takes no way away, if what is written is whole. -/
theorem Spreads.write {Q : Place → Prop} (h : Γ.Spreads Q Δ) (hd : ty.defined = true)
    (hty : ∀ t ∈ ty.borrowed, Q t) (hw : writeUpTo variance ty n false Δ q = .ok Γ') :
    Γ.Spreads Q Γ' := by
  have hslots : Δ.Slots (fun x s' => (∃ s, Δ.get? x = some s ∧ s.ty.Widens true s'.ty) ∧
      ∀ t ∈ s'.ty.borrowed, Q t) Γ' := by
    refine writeUpTo_slots (Q := fun _ => True) (fun _ _ _ _ _ _ _ _ _ => trivial)
      (fun Γ₁ q s old new h₁ _ hadm hf hnew => ?_) ⟨fun _ => Iff.rfl, fun x s hs => ?_⟩ trivial hw
    · have hu : old.union ty = some new := hnew.resolve_left (absurd ·.1 Bool.false_ne_true)
      obtain ⟨⟨s₀, hs₀, hwide⟩, hlends⟩ := h₁.slot _ _ hadm.slot
      have hold : old.Widens true new := hd ▸ (Ty.Widens.of_union hu).1
      refine ⟨⟨s₀, hs₀, hwide.trans (.of_replaceAt hf hold)⟩, fun t ht => ?_⟩
      obtain ⟨m, ht⟩ := Ty.mem_borrowed.1 ht
      exact (Ty.lends_of_put hf (.inr hu) ht).elim (fun ht => hlends t ht.borrowed)
        fun ht => hty t ht.borrowed
    · refine ⟨⟨s, hs, .refl _⟩, fun t ht => ?_⟩
      obtain ⟨m, ht⟩ := Ty.mem_borrowed.1 ht
      exact h.lends t (mem_targets hs ht)
  refine ⟨fun p q hpq => ?_, fun t ht => ?_⟩
  · obtain ⟨s, m, ps, rest, t, hs, hf, ht, rfl⟩ := h.follows p q hpq
    obtain ⟨s', hs', ⟨s₀, hs₀, hwide⟩, -⟩ := hslots.bound hs
    cases hs.symm.trans hs₀
    have hwalk := hwide p.path
    rw [hf] at hwalk
    generalize hf' : s'.ty.follow p.path = walk at hwalk
    cases hwalk with
    | same => exact ⟨s', m, ps, rest, t, hs', hf', ht, rfl⟩
    | crossed hsub => exact ⟨s', m, _, rest, t, hs', hf', hsub t ht, rfl⟩
    | moved hw => cases hw
  · obtain ⟨s, hs, ht⟩ := List.mem_flatMap.1 ht
    obtain ⟨⟨x, s⟩, hm, rfl⟩ := List.mem_map.1 hs
    exact (hslots.slot x s (NameMap.mem_entries_iff.1 hm)).2 t ht

/-- A write goes on within the budget of the stretches of its place. -/
theorem Nests.writeUpTo {ts : List Place} {fs : List Stretch} (h : Nests ts Γ x fs)
    (hd : ty.defined = true) (hN : ts.length ≤ N + 1)
    (hts : ∀ t ∈ Γ.targets, t ∈ ts ∧ t.path.length ≤ w)
    (hty : ∀ t ∈ ty.borrowed, t ∈ ts ∧ t.path.length ≤ w)
    (hok : writeUpTo variance ty n strong Γ ⟨x, Stretch.path fs⟩ = .ok Γ') :
    writeUpTo variance ty (Stretch.budget w N fs + 1) strong Γ ⟨x, Stretch.path fs⟩ = .ok Γ' := by
  induction n generalizing strong Γ x fs Γ' with
  | zero => cases hok
  | succ n ih =>
    obtain ⟨s, ha, ⟨old, new, hf, rfl, hnew⟩ | ⟨ps, rest, Γ₁, hf, hfold, rfl⟩⟩ := writeUpTo_ok hok
    · exact writeUpTo_of_reached ha hf hnew
    · refine writeUpTo_of_crossed ha hf ?_
      obtain ⟨current, ht, -⟩ := ha.compatible
      have hstart : Γ.Spreads (fun t => t ∈ ts ∧ t.path.length ≤ w) Γ := ⟨fun _ _ => id, hts⟩
      refine foldlM_congr (fun q hq Δ Δ' hΔ hw => ⟨hΔ.write hd hty hw, ?_⟩) hstart hfold
      obtain ⟨t, htm, rfl⟩ := List.mem_map.1 hq
      obtain ⟨hts', htw⟩ := hts t (mem_targets ha.slot (Ty.lends_of_crossed hf htm))
      obtain ⟨fs', hfs', e, hlt⟩ := h.step hN ht ha.slot hf htm hts' htw
      rw [e] at hw ⊢
      exact writeUpTo_mono (ih (hfs'.mono hΔ.follows) hΔ.lends hw) hlt

end Env

/-- **A write of something whole that ends ends within the bound.** -/
theorem write_of_writeUpTo (hd : ty.defined = true)
    (h : writeUpTo variance ty n strong Γ p = .ok Γ') : write variance Γ p ty strong = .ok Γ' := by
  have hfirst : Env.Nests (p :: (Γ.targets ++ ty.borrowed)) Γ p.name [(p, p.path)] :=
    .single List.mem_cons_self
  have hpath : Stretch.path [(p, p.path)] = p.path := by simp [Stretch.path]
  have hbudget := hfirst.writeUpTo (N := Γ.targets.length + ty.borrowed.length)
    (w := Γ.weight + ty.weight) hd (by simp) (fun t ht => ?_) (fun t ht => ?_)
    (by rw [hpath]; exact h)
  · rw [hpath] at hbudget
    exact writeUpTo_mono hbudget (budget_lt_crossings ..)
  · exact ⟨by simp [ht], Nat.le_add_right_of_le (Env.length_le_weight ht)⟩
  · obtain ⟨m, hm⟩ := Ty.mem_borrowed.1 ht
    exact ⟨by simp [ht], Nat.le_add_left_of_le hm.length_le_weight⟩

end Ownership
