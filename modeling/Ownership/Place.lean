import Ownership.Sorted

/-!
# Places

A place is where a value can be stored, as a program names it: a variable
followed by selectors that look through a reference or pick a component.
Two places conflict when one contains the other (`conflicts`). Places are
ordered by name and then by path, a dereference before any component.
-/

namespace Ownership

/-- One step from a place to a part of it. -/
inductive Selector where
  /-- What the reference stored there points to. -/
  | deref
  /-- A component of the compound value stored there. -/
  | index (i : Nat)
  deriving DecidableEq, Repr

/-- Place of a selector in the order: a dereference comes first, then components by number. -/
def Selector.rank : Selector → Nat
  | deref => 0
  | index i => i + 1

theorem Selector.rank_inj {a b : Selector} : a.rank = b.rank ↔ a = b := by
  cases a <;> cases b <;> simp [rank]

/-- A variable and a path into what it holds. -/
structure Place where
  name : String
  path : List Selector
  deriving DecidableEq, Repr

namespace Place

def var (name : String) : Place := ⟨name, []⟩

def deref (p : Place) : Place := ⟨p.name, p.path ++ [.deref]⟩

def index (p : Place) (i : Nat) : Place := ⟨p.name, p.path ++ [.index i]⟩

/-- The place reached by following `rest` from `p`. -/
def extend (p : Place) (rest : List Selector) : Place := ⟨p.name, p.path ++ rest⟩

def isVar (p : Place) : Bool := p.path.isEmpty

/-- Two paths agree as far as both go. -/
def pathsMeet : List Selector → List Selector → Bool
  | a :: s, b :: t => a == b && pathsMeet s t
  | _, _ => true

/-- One of the two places contains the other. Distinct components of one compound do not
conflict. -/
def conflicts (p q : Place) : Bool := p.name == q.name && pathsMeet p.path q.path

/-! ### Order -/

instance : LT Place where
  lt p q := p.name < q.name ∨ p.name = q.name ∧ p.path.map Selector.rank < q.path.map Selector.rank

theorem lt_iff {p q : Place} : p < q ↔
    p.name < q.name ∨ p.name = q.name ∧ p.path.map Selector.rank < q.path.map Selector.rank :=
  Iff.rfl

instance : DecidableLT Place := fun p q => inferInstanceAs (Decidable
  (p.name < q.name ∨ p.name = q.name ∧ p.path.map Selector.rank < q.path.map Selector.rank))

instance : Std.Irrefl (α := Place) (· < ·) where
  irrefl p h := by
    rcases lt_iff.1 h with h | ⟨-, h⟩ <;> exact Std.lt_irrefl h

instance : Trans (α := Place) (· < ·) (· < ·) (· < ·) where
  trans {p q r} h₁ h₂ := by
    rw [lt_iff] at *
    rcases h₁ with h₁ | ⟨e₁, h₁⟩ <;> rcases h₂ with h₂ | ⟨e₂, h₂⟩
    · exact .inl (Std.lt_trans h₁ h₂)
    · exact .inl (e₂ ▸ h₁)
    · exact .inl (e₁ ▸ h₂)
    · exact .inr ⟨e₁.trans e₂, Std.lt_trans h₁ h₂⟩

theorem map_rank_inj {s t : List Selector} (h : s.map Selector.rank = t.map Selector.rank) :
    s = t :=
  (List.map_inj_right fun _ _ => Selector.rank_inj.1).1 h

instance : Std.Trichotomous (α := Place) (· < ·) where
  trichotomous p q h₁ h₂ := by
    rw [lt_iff, not_or, not_and] at *
    have en : p.name = q.name := Std.Trichotomous.trichotomous _ _ h₁.1 h₂.1
    have ep := Std.Trichotomous.trichotomous (r := (· < ·)) _ _ (h₁.2 en) (h₂.2 en.symm)
    cases p; cases q; cases en; cases map_rank_inj ep; rfl

/-- The order of two places as a comparison. -/
def order (p q : Place) : Ordering :=
  if p < q then .lt else if q < p then .gt else .eq

/-! ### Text -/

/-- One more selector around the text of a place. A component of a starred text is
set off by parentheses. -/
def select (text : String) : Selector → String
  | .deref => "*" ++ text
  | .index i =>
    if text.toList.head? = some '*' then "(" ++ text ++ ")." ++ toString i
    else text ++ "." ++ toString i

def text (p : Place) : String := p.path.foldl select p.name

end Place

/-- A number can be read back from its text. -/
theorem number_injective {i j : Nat} (h : toString i = toString j) : i = j := by
  have hd := congrArg String.toList h
  rw [Nat.toString_eq_repr, Nat.toString_eq_repr, Nat.toList_repr, Nat.toList_repr] at hd
  simpa using congrArg (Nat.ofDigitChars 10 · 0) hd

end Ownership
