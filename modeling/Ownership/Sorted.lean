/-!
# Sorted lists

Lists in strictly ascending order of a key, the common ground of the sets of
places and of the maps from names. Such a list is determined by its members
(`Sorted.eq_of_mem_iff`), so containers built on it compare by content.
-/

namespace Ownership

/-- Strictly ascending by `key`. -/
def Sorted {α κ : Type} [LT κ] (key : α → κ) (l : List α) : Prop :=
  l.Pairwise fun a b => key a < key b

namespace Sorted

variable {α κ : Type} [LT κ] {key : α → κ}

/-- Puts `x` at its place, in the stead of the element with the same key if there is one. -/
def insert [DecidableLT κ] (key : α → κ) (x : α) : List α → List α
  | [] => [x]
  | y :: l =>
    if key x < key y then x :: y :: l
    else if key y < key x then y :: insert key x l
    else x :: l

variable [Std.Irrefl (α := κ) (· < ·)]

variable [Trans (α := κ) (· < ·) (· < ·) (· < ·)]

/-- A sorted list is determined by its members. -/
theorem eq_of_mem_iff {l₁ l₂ : List α} (h₁ : Sorted key l₁) (h₂ : Sorted key l₂)
    (h : ∀ x, x ∈ l₁ ↔ x ∈ l₂) : l₁ = l₂ := by
  induction l₁ generalizing l₂ with
  | nil =>
    cases l₂ with
    | nil => rfl
    | cons y l₂ => exact absurd ((h y).2 List.mem_cons_self) List.not_mem_nil
  | cons x l₁ ih =>
    cases l₂ with
    | nil => exact absurd ((h x).1 List.mem_cons_self) List.not_mem_nil
    | cons y l₂ =>
      obtain ⟨hx, hl₁⟩ := List.pairwise_cons.1 h₁
      obtain ⟨hy, hl₂⟩ := List.pairwise_cons.1 h₂
      -- the heads are the least members, hence equal
      have hxy : x = y := by
        rcases List.mem_cons.1 ((h x).1 List.mem_cons_self) with e | m₁
        · exact e
        rcases List.mem_cons.1 ((h y).2 List.mem_cons_self) with e | m₂
        · exact e.symm
        exact absurd (Std.lt_trans (hx _ m₂) (hy _ m₁)) Std.lt_irrefl
      subst hxy
      refine congrArg _ (ih hl₁ hl₂ fun z => ?_)
      have hz := h z
      simp only [List.mem_cons] at hz
      constructor
      · intro m
        rcases hz.1 (.inr m) with rfl | m'
        · exact absurd (hx _ m) Std.lt_irrefl
        · exact m'
      · intro m
        rcases hz.2 (.inr m) with rfl | m'
        · exact absurd (hy _ m) Std.lt_irrefl
        · exact m'

theorem mem_insert [DecidableLT κ] [Std.Trichotomous (α := κ) (· < ·)] {l : List α}
    (h : Sorted key l) {x z : α} :
    z ∈ insert key x l ↔ z = x ∨ z ∈ l ∧ key z ≠ key x := by
  induction l with
  | nil => simp [insert]
  | cons y l ih =>
    obtain ⟨hy, hl⟩ := List.pairwise_cons.1 h
    have above : ∀ {z}, z ∈ l → key x < key y → key z ≠ key x := fun m lt e =>
      absurd (Std.lt_trans (e ▸ lt) (hy _ m)) Std.lt_irrefl
    simp only [insert]
    split
    · rename_i lt
      have hne : key y ≠ key x := fun e => absurd (e ▸ lt) Std.lt_irrefl
      simp only [List.mem_cons]
      constructor
      · rintro (rfl | rfl | m)
        · exact .inl rfl
        · exact .inr ⟨.inl rfl, hne⟩
        · exact .inr ⟨.inr m, above m lt⟩
      · rintro (rfl | ⟨rfl | m, -⟩)
        · exact .inl rfl
        · exact .inr (.inl rfl)
        · exact .inr (.inr m)
    · split
      · rename_i gt
        have hne : key y ≠ key x := fun e => absurd (e ▸ gt) Std.lt_irrefl
        simp only [List.mem_cons, ih hl]
        constructor
        · rintro (rfl | rfl | ⟨m, ne⟩)
          · exact .inr ⟨.inl rfl, hne⟩
          · exact .inl rfl
          · exact .inr ⟨.inr m, ne⟩
        · rintro (rfl | ⟨rfl | m, ne⟩)
          · exact .inr (.inl rfl)
          · exact .inl rfl
          · exact .inr (.inr ⟨m, ne⟩)
      · rename_i nlt ngt
        have e : key x = key y := by
          rcases Std.lt_trichotomy (key x) (key y) with lt | e | gt
          · exact absurd lt nlt
          · exact e
          · exact absurd gt ngt
        simp only [List.mem_cons]
        constructor
        · rintro (rfl | m)
          · exact .inl rfl
          · exact .inr ⟨.inr m, fun e' => absurd ((e'.trans e) ▸ hy _ m) Std.lt_irrefl⟩
        · rintro (rfl | ⟨rfl | m, ne⟩)
          · exact .inl rfl
          · exact absurd e.symm ne
          · exact .inr m

theorem insert_sorted [DecidableLT κ] [Std.Trichotomous (α := κ) (· < ·)] {l : List α}
    (h : Sorted key l) (x : α) : Sorted key (insert key x l) := by
  induction l with
  | nil => simp [insert, Sorted]
  | cons y l ih =>
    obtain ⟨hy, hl⟩ := List.pairwise_cons.1 h
    simp only [insert]
    split
    · rename_i lt
      refine List.pairwise_cons.2 ⟨fun z m => ?_, h⟩
      rcases List.mem_cons.1 m with rfl | m
      · exact lt
      · exact Std.lt_trans lt (hy _ m)
    · split
      · rename_i gt
        refine List.pairwise_cons.2 ⟨fun z m => ?_, ih hl⟩
        rcases (mem_insert hl).1 m with rfl | ⟨m, -⟩
        · exact gt
        · exact hy _ m
      · rename_i nlt ngt
        have e : key x = key y := by
          rcases Std.lt_trichotomy (key x) (key y) with lt | e | gt
          · exact absurd lt nlt
          · exact e
          · exact absurd gt ngt
        exact List.pairwise_cons.2 ⟨fun z m => e ▸ hy _ m, hl⟩

end Sorted

end Ownership
