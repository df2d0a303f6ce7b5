import Mathlib.Data.List.Induction
import Ownership.Proofs.Changes
import Ownership.Proofs.Soundness.World

/-!
# Places that do not conflict lie apart

Conflict of places is told from their names and paths alone. In a store where boxes have one owner
each, this is right about where the places lie: two of them that are found through owners alone, and
do not conflict, share no part of the store.

Going back from an address there is one way only: it is the cell of a variable, or it has one owner
(`State.Tidy.stem`). So two places that come to the same cell have come there by the same
selectors, up to the components that they pick in it (`State.Tidy.same_stem`).

* `locate_apart`: **places that do not conflict lie apart.**
-/

namespace Ownership

variable {s : State} {p q : Place} {r r₁ r₂ : Reference} {t t₁ t₂ : Reference} {v : Value}
variable {π ρ : List Selector} {x : String} {a : Nat}

/-! ### Two owners -/

section Count

variable {α : Type} {f : α → List Nat} {l : List α} {i j : Nat} {u w : α}

theorem count_le_flatMap (hi : l[i]? = some u) : (f u).count a ≤ (l.flatMap f).count a := by
  rw [List.flatMap_def]
  exact (List.sublist_flatten_of_mem (List.mem_map_of_mem (List.mem_of_getElem? hi))).count_le a

/-- What is found at two places of a list counts twice. -/
theorem two_le_count_flatMap (hi : l[i]? = some u) (hj : l[j]? = some w) (hne : i ≠ j)
    (hu : a ∈ f u) (hw : a ∈ f w) : 2 ≤ (l.flatMap f).count a := by
  have hu := List.count_pos_iff.2 hu
  have hw := List.count_pos_iff.2 hw
  induction l generalizing i j with
  | nil => cases hi
  | cons y l ih =>
    rw [List.flatMap_cons, List.count_append]
    cases i with
    | zero =>
      cases j with
      | zero => exact absurd rfl hne
      | succ j =>
        cases hi
        have := count_le_flatMap (f := f) (a := a) (l := l) hj
        omega
    | succ i =>
      cases j with
      | zero =>
        cases hj
        have := count_le_flatMap (f := f) (a := a) (l := l) hi
        omega
      | succ j =>
        have := ih hi hj (by omega)
        omega

end Count

namespace Value

/-- A value owns what an owner in it points to. -/
theorem mem_owned_of_select? {path : List Nat} (h : v.select? path = some (.ref t))
    (ho : t.owner = true) : t.address ∈ v.owned := by
  induction path generalizing v with
  | nil =>
    simp only [select?, Option.some.injEq] at h
    subst h
    simp [owned, references, pushReferences, ho]
  | cons i path ih =>
    cases v with
    | compound vs =>
      simp only [select?, Option.bind_eq_some_iff] at h
      obtain ⟨w, hw, h⟩ := h
      rw [owned_compound]
      exact List.mem_flatMap.2 ⟨w, List.mem_of_getElem? hw, ih h⟩
    | _ => simp [select?] at h

/-- Two owners of one address count twice. -/
theorem two_le_count_owned {path path' : List Nat} (h₁ : v.select? path = some (.ref t₁))
    (h₂ : v.select? path' = some (.ref t₂)) (ho₁ : t₁.owner = true) (ho₂ : t₂.owner = true)
    (ha : t₁.address = t₂.address) (hne : path ≠ path') : 2 ≤ v.owned.count t₁.address := by
  induction path generalizing v path' with
  | nil =>
    simp only [select?, Option.some.injEq] at h₁
    subst h₁
    cases path' with
    | nil => exact absurd rfl hne
    | cons j path' => simp [select?] at h₂
  | cons i path ih =>
    cases v with
    | compound vs =>
      cases path' with
      | nil => simp [select?] at h₂
      | cons j path' =>
        simp only [select?, Option.bind_eq_some_iff] at h₁ h₂
        obtain ⟨u, hu, h₁⟩ := h₁
        obtain ⟨w, hw, h₂⟩ := h₂
        rw [owned_compound]
        by_cases hij : i = j
        · -- both are in the same component
          subst hij
          cases hu.symm.trans hw
          have hin : 2 ≤ u.owned.count t₁.address := ih h₁ h₂ fun e => hne (by rw [e])
          exact Nat.le_trans hin (count_le_flatMap hu)
        · refine two_le_count_flatMap hu hw hij (mem_owned_of_select? h₁ ho₁) ?_
          rw [ha]
          exact mem_owned_of_select? h₂ ho₂
    | _ => simp [select?] at h₁

end Value

namespace Store

variable {s : Store}

/-- **An address that is owned once has its owner at one location.** -/
theorem owner_unique (h₁ : s.read r₁ = .ok (.ref t₁)) (h₂ : s.read r₂ = .ok (.ref t₂))
    (ho₁ : t₁.owner = true) (ho₂ : t₂.owner = true) (ha : t₁.address = t₂.address)
    (hone : (s.owners []).count t₁.address = 1) :
    r₁.address = r₂.address ∧ r₁.path = r₂.path := by
  obtain ⟨c₁, hc₁, hv₁⟩ := read_ok.1 h₁
  obtain ⟨c₂, hc₂, hv₂⟩ := read_ok.1 h₂
  have howned : s.owners [] = s.cells.toList.flatMap ownedIn := by
    rw [owners_eq, List.flatMap_nil, List.append_nil, owned]
  have listed : ∀ {a c}, s.cell? a = some c → s.cells.toList[a]? = some (some c) := fun hc => by
    rw [Array.getElem?_toList, cell?_eq_some.1 hc]
  rw [howned] at hone
  have hcell : r₁.address = r₂.address := by
    by_contra hne
    have htwo := two_le_count_flatMap (f := ownedIn) (a := t₁.address) (listed hc₁)
      (listed hc₂) hne (Value.mem_owned_of_select? hv₁ ho₁)
      (ha ▸ Value.mem_owned_of_select? hv₂ ho₂)
    omega
  refine ⟨hcell, ?_⟩
  by_contra hne
  rw [hcell, hc₂] at hc₁
  cases hc₁
  have htwo := Value.two_le_count_owned hv₁ hv₂ ho₁ ho₂ ha hne
  have hle := count_le_flatMap (f := ownedIn) (a := t₁.address) (listed hc₂)
  rw [ownedIn] at hle
  omega

end Store

/-! ### The way back -/

namespace State

/-- **Variables have cells of their own, and boxes one owner each.** -/
structure Tidy (s : State) : Prop where
  /-- A variable is bound to a live cell of some scope. -/
  bound : ∀ x b, s.frame.get? x = some b → b.location.owner = false ∧ b.location.path = [] ∧
    ∃ c, s.store.cell? b.location.address = some c ∧ c.lifetime.isRoot = false
  /-- Different variables are bound to different cells. -/
  distinct : ∀ x y b d, s.frame.get? x = some b → s.frame.get? y = some d →
    b.location.address = d.location.address → x = y
  /-- An owner points to a live cell of the heap, and is the only one that does. -/
  owner : ∀ a c, s.store.cell? a = some c → ∀ r ∈ c.value.references, r.owner = true →
    r.path = [] ∧ (∃ d, s.store.cell? r.address = some d ∧ d.lifetime.isRoot = true) ∧
      (s.store.owners []).count r.address = 1

/-- Every dereference on the way to `p` is one of an owner. -/
def ThroughOwners (s : State) (p : Place) : Prop :=
  ∀ π ρ, p.path = π ++ .deref :: ρ → ∃ r t, s.locate ⟨p.name, π⟩ = .ok r ∧
    s.store.read r = .ok (.ref t) ∧ t.owner = true

theorem locate_var : s.locate ⟨x, []⟩ = .ok r ↔ ∃ b, s.frame.get? x = some b ∧ r = b.location := by
  rw [locate]
  cases s.frame.get? x with
  | none => simp
  | some b => simp [pure, Except.pure, eq_comm]

theorem locate_select {e : Selector} : s.locate ⟨x, π ++ [e]⟩ = .ok r ↔
    ∃ r₀, s.locate ⟨x, π⟩ = .ok r₀ ∧ follow s.store r₀ e = .ok r := by
  rw [locate, locate]
  cases s.frame.get? x with
  | none => simp
  | some b => simp only [List.foldlM_append, List.foldlM_cons, List.foldlM_nil, Traced.bind_eq_ok,
      bind_pure]

theorem throughOwners_var : s.ThroughOwners ⟨x, []⟩ := fun π ρ h => by simp at h

/-- One more selector is one more dereference at most. -/
theorem throughOwners_select {e : Selector} : s.ThroughOwners ⟨x, π ++ [e]⟩ ↔
    s.ThroughOwners ⟨x, π⟩ ∧ (e = .deref → ∃ r t, s.locate ⟨x, π⟩ = .ok r ∧
      s.store.read r = .ok (.ref t) ∧ t.owner = true) := by
  constructor
  · refine fun h => ⟨fun κ ρ hκ => h κ (ρ ++ [e]) ?_, fun he => h π [] (by rw [he])⟩
    simp only at hκ ⊢
    rw [hκ, List.append_assoc, List.cons_append]
  · rintro ⟨h, he⟩ κ ρ hκ
    -- the dereference is the last selector, or comes before it
    rcases List.eq_nil_or_concat' ρ with rfl | ⟨ρ, d, rfl⟩
    · obtain ⟨rfl, hd⟩ := List.append_inj' hκ rfl
      exact he (List.singleton_inj.1 hd)
    · rw [← List.cons_append, ← List.append_assoc] at hκ
      exact h κ ρ (List.append_inj' hκ rfl).1

/-- **What has been read from the store and owns is told of by the state.** -/
theorem Tidy.of_read (h : s.Tidy) (hr : s.store.read r = .ok (.ref t)) (ho : t.owner = true) :
    t.path = [] ∧ (∃ d, s.store.cell? t.address = some d ∧ d.lifetime.isRoot = true) ∧
      (s.store.owners []).count t.address = 1 := by
  obtain ⟨c, hc, hv⟩ := Store.read_ok.1 hr
  exact h.owner _ c hc t (Value.references_select? hv List.mem_cons_self) ho

/-- **The way back.** A place comes to a cell as a variable or by its owner, and then goes on by
components only. -/
theorem Tidy.stem (h : s.Tidy) (hp : s.locate ⟨x, π⟩ = .ok r) (ho : s.ThroughOwners ⟨x, π⟩) :
    (∃ b, s.frame.get? x = some b ∧ r.address = b.location.address ∧
        π = r.path.map Selector.index) ∨
      ∃ κ r₀ t, s.locate ⟨x, κ⟩ = .ok r₀ ∧ s.ThroughOwners ⟨x, κ⟩ ∧
        s.store.read r₀ = .ok (.ref t) ∧ t.owner = true ∧ t.address = r.address ∧
        π = κ ++ .deref :: r.path.map Selector.index := by
  induction π using List.reverseRecOn generalizing r with
  | nil =>
    obtain ⟨b, hb, rfl⟩ := locate_var.1 hp
    obtain ⟨-, hpath, -⟩ := h.bound x b hb
    exact .inl ⟨b, hb, rfl, by rw [hpath, List.map_nil]⟩
  | append_singleton π e ih =>
    obtain ⟨r₀, hr₀, hstep⟩ := locate_select.1 hp
    obtain ⟨hπ, hlast⟩ := throughOwners_select.1 ho
    cases e with
    | index i =>
      cases hstep
      rcases ih hr₀ hπ with ⟨b, hb, ha, e⟩ | ⟨κ, r₁, t, hr₁, hκ, hread, hown, ha, e⟩
      · exact .inl ⟨b, hb, ha, by simp [Reference.index, e]⟩
      · exact .inr ⟨κ, r₁, t, hr₁, hκ, hread, hown, ha, by simp [Reference.index, e]⟩
    | deref =>
      obtain ⟨r₁, t, hr₁, hread, hown⟩ := hlast rfl
      cases hr₀.symm.trans hr₁
      simp only [follow, hread, Traced.ok_bind] at hstep
      cases hstep
      obtain ⟨hpath, -⟩ := h.of_read hread hown
      exact .inr ⟨π, r₀, t, hr₀, hπ, hread, hown, rfl, by simp [Reference.toBorrow, hpath]⟩

/-- A place of the heap is not in the cell of a variable. -/
theorem Tidy.not_bound (h : s.Tidy) {b : Binding} (hb : s.frame.get? x = some b)
    (hr : s.store.read r = .ok (.ref t)) (ho : t.owner = true) :
    t.address ≠ b.location.address := by
  intro ha
  obtain ⟨-, -, c, hc, hscoped⟩ := h.bound x b hb
  obtain ⟨-, ⟨d, hd, hroot⟩, -⟩ := h.of_read hr ho
  rw [ha, hc] at hd
  cases hd
  rw [hscoped] at hroot
  cases hroot

/-- **Places that come to the same cell have come there by the same selectors.** -/
theorem Tidy.same_stem (h : s.Tidy) {y : String} {κ : List Selector}
    (hp : s.locate ⟨x, π⟩ = .ok r₁) (hq : s.locate ⟨y, κ⟩ = .ok r₂)
    (hop : s.ThroughOwners ⟨x, π⟩) (hoq : s.ThroughOwners ⟨y, κ⟩) (ha : r₁.address = r₂.address) :
    x = y ∧ ∃ stem, π = stem ++ r₁.path.map Selector.index ∧
      κ = stem ++ r₂.path.map Selector.index := by
  -- each owner on the way back is the same for both places
  induction hn : π.length using Nat.strongRecOn generalizing π κ r₁ r₂ with
  | _ n ih =>
    rcases h.stem hp hop with ⟨b, hb, hab, hπ⟩ | ⟨π', t₁, o₁, hp', hop', hread₁, ho₁, ha₁, hπ⟩
    · rcases h.stem hq hoq with ⟨d, hd, had, hκ⟩ | ⟨κ', t₂, o₂, -, -, hread₂, ho₂, ha₂, -⟩
      · exact ⟨h.distinct x y b d hb hd (hab.symm.trans (ha.trans had)), [], hπ, hκ⟩
      · exact absurd (ha₂.trans (ha.symm.trans hab)) (h.not_bound hb hread₂ ho₂)
    · rcases h.stem hq hoq with ⟨d, hd, had, -⟩ | ⟨κ', t₂, o₂, hq', hoq', hread₂, ho₂, ha₂, hκ⟩
      · exact absurd (ha₁.trans (ha.trans had)) (h.not_bound hd hread₁ ho₁)
      · obtain ⟨-, -, hone⟩ := h.of_read hread₁ ho₁
        obtain ⟨hcell, hpath⟩ := Store.owner_unique hread₁ hread₂ ho₁ ho₂
          (ha₁.trans (ha.trans ha₂.symm)) hone
        have hlen : π'.length < n := by
          rw [← hn, hπ, List.length_append, List.length_cons]
          omega
        obtain ⟨rfl, stem, hπ', hκ'⟩ := ih _ hlen hp' hq' hop' hoq' hcell rfl
        refine ⟨rfl, π' ++ [.deref], by rw [hπ, List.append_assoc]; rfl, ?_⟩
        rw [hκ, hκ', ← hpath, ← hπ', List.append_assoc]
        rfl

end State

/-- **Places that do not conflict lie apart**: they are found in different cells, or in different
parts of one. -/
theorem locate_apart (hs : s.Tidy) (hc : p.conflicts q = false)
    (hp : s.locate p = .ok r₁) (hq : s.locate q = .ok r₂)
    (hop : s.ThroughOwners p) (hoq : s.ThroughOwners q) :
    r₁.address ≠ r₂.address ∨
      r₁.address = r₂.address ∧ ¬ r₁.path <+: r₂.path ∧ ¬ r₂.path <+: r₁.path := by
  by_cases ha : r₁.address = r₂.address
  · obtain ⟨hname, stem, hπ, hκ⟩ := hs.same_stem hp hq hop hoq ha
    -- behind the common stem the places pick what the locations pick
    have free : ¬ (p.path <+: q.path ∨ q.path <+: p.path) := fun h => by
      rw [Place.conflicts_iff.2 ⟨hname, h⟩] at hc
      cases hc
    rw [hπ, hκ, List.prefix_append_right_inj, List.prefix_append_right_inj] at free
    refine .inr ⟨ha, fun h => free (.inl (h.map _)), fun h => free (.inr (h.map _))⟩
  · exact .inl ha

/-- A pair `x` of a box and a number, where the box holds a pair of another box and a number, and a
box `y`. -/
def nestedBoxes : State where
  frame := (NameMap.empty.insert "x" ⟨.borrowed 0, .inside 1 (.root 0)⟩).insert "y"
    ⟨.borrowed 1, .inside 1 (.root 0)⟩
  store := ⟨#[some ⟨.inside 1 (.root 0), .compound [.ref (.owned 2), .int 5]⟩,
    some ⟨.inside 1 (.root 0), .ref (.owned 3)⟩,
    some ⟨.root 0, .compound [.ref (.owned 4), .int 7]⟩,
    some ⟨.root 0, .int 1⟩, some ⟨.root 0, .int 2⟩]⟩

theorem tidy_nestedBoxes : nestedBoxes.Tidy where
  bound x b hb := by
    have all : ∀ e ∈ nestedBoxes.frame.entries, e.2.location.owner = false ∧
        e.2.location.path = [] ∧ (nestedBoxes.store.cell? e.2.location.address).any
          (fun c => c.lifetime.isRoot == false) = true := by
      decide
    obtain ⟨ho, hp, hc⟩ := all (x, b) (NameMap.mem_entries_iff.2 hb)
    obtain ⟨c, hc, hr⟩ := (Option.any_eq_true ..).1 hc
    exact ⟨ho, hp, c, hc, by simpa using hr⟩
  distinct x y b d hb hd ha := by
    have all : ∀ e ∈ nestedBoxes.frame.entries, ∀ e' ∈ nestedBoxes.frame.entries,
        e.2.location.address = e'.2.location.address → e.1 = e'.1 := by
      decide
    exact all (x, b) (NameMap.mem_entries_iff.2 hb) (y, d) (NameMap.mem_entries_iff.2 hd) ha
  owner a c hc r hr ho := by
    have all : ∀ c ∈ nestedBoxes.store.live, ∀ r ∈ c.value.references, r.owner = true →
        r.path = [] ∧ (nestedBoxes.store.cell? r.address).any (·.lifetime.isRoot) = true ∧
          (nestedBoxes.store.owners []).count r.address = 1 := by
      decide
    obtain ⟨hp, hd, hone⟩ := all c (Store.mem_live.2 ⟨a, hc⟩) r hr ho
    exact ⟨hp, (Option.any_eq_true ..).1 hd, hone⟩

/-- `*(*x.0).0` -/
def innerBox : Place := ⟨"x", [.index 0, .deref, .index 0, .deref]⟩

/-- `(*x.0).1` -/
def innerNumber : Place := ⟨"x", [.index 0, .deref, .index 1]⟩

theorem locate_apart_nestedBoxes :
    nestedBoxes.Tidy ∧ innerBox.conflicts innerNumber = false ∧
    nestedBoxes.locate innerBox = .ok ⟨4, [], false⟩ ∧
    nestedBoxes.locate innerNumber = .ok ⟨2, [1], false⟩ ∧
    nestedBoxes.ThroughOwners innerBox ∧ nestedBoxes.ThroughOwners innerNumber ∧
    (4 ≠ 2 ∨ 4 = 2 ∧ ¬ [] <+: [1] ∧ ¬ [1] <+: []) := by
  have hpair : nestedBoxes.ThroughOwners ⟨"x", [.index 0, .deref]⟩ :=
    (State.throughOwners_select (π := [.index 0])).2
      ⟨(State.throughOwners_select (π := [])).2 ⟨State.throughOwners_var, nofun⟩,
        fun _ => ⟨⟨0, [0], false⟩, .owned 2, rfl, rfl, rfl⟩⟩
  have hp : nestedBoxes.ThroughOwners innerBox :=
    (State.throughOwners_select (π := [.index 0, .deref, .index 0])).2
      ⟨(State.throughOwners_select (π := [.index 0, .deref])).2 ⟨hpair, nofun⟩,
        fun _ => ⟨⟨2, [0], false⟩, .owned 4, rfl, rfl, rfl⟩⟩
  have hq : nestedBoxes.ThroughOwners innerNumber :=
    (State.throughOwners_select (π := [.index 0, .deref])).2 ⟨hpair, nofun⟩
  have hbox : nestedBoxes.locate innerBox = .ok ⟨4, [], false⟩ := rfl
  have hnumber : nestedBoxes.locate innerNumber = .ok ⟨2, [1], false⟩ := rfl
  exact ⟨tidy_nestedBoxes, rfl, hbox, hnumber, hp, hq,
    locate_apart tidy_nestedBoxes rfl hbox hnumber hp hq⟩

end Ownership
