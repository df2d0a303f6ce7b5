import Ownership.Proofs.Checking.Bounds
import Ownership.Proofs.Checking.Sites
import Ownership.Proofs.Soundness.World

/-!
# What changes with one place

A move leaves a shadow at the place that is read, and an assignment that crosses no borrow puts a
new type there. Neither may be done while the place is borrowed. So no borrow leads to it, and every
place that does not conflict with it comes to what it came to before (`Env.Unchanged`), through
borrows in other variables too.

How many borrows may be crossed in a row depends on the size of the environment (`crossings`), which
such a change makes larger or smaller. That two places come to the same is said for any bound.

* `Env.Unchanged.insert`: **what is borrowed nowhere can be changed without notice elsewhere.**
* `Checker.apply_move`: **a move takes out one place**, and with it what is above and below.
* `Checker.apply_assign_direct`: **an assignment that crosses no borrow changes one place.**
-/

namespace Ownership

variable {c : Checker} {Γ Γ₁ Γ₂ Γ' : Env} {p q t : Place} {T U u old new : Ty} {s s' : Slot}
variable {n : Nat} {m : Bool} {π ρ : List Selector} {l : Lifetime} {sp : Span} {source : Term}

/-! ### Environments that agree on a place -/

namespace Env

/-- Where the path of a place leads in the type of its variable. -/
def walk (Γ : Env) (q : Place) : Option Walk := (Γ.get? q.name).map fun s => s.ty.follow q.path

theorem walk_eq_some {w : Walk} :
    Γ.walk q = some w ↔ ∃ s, Γ.get? q.name = some s ∧ s.ty.follow q.path = w := by
  rw [walk, Option.map_eq_some_iff]

theorem walk_eq_none : Γ.walk q = none ↔ Γ.get? q.name = none := by
  rw [walk, Option.map_eq_none_iff]

end Env

theorem availability_congr (h : Γ'.walk q = Γ.walk q) (write : Bool) :
    availability Γ' q write = availability Γ q write := by
  rw [availability, availability]
  cases hs : Γ.get? q.name with
  | none =>
    rw [Env.walk_eq_none.2 hs] at h
    rw [Env.walk_eq_none.1 h]
  | some s =>
    rw [Env.walk_eq_some.2 ⟨s, hs, rfl⟩] at h
    obtain ⟨s', hs', hf⟩ := Env.walk_eq_some.1 h
    rw [hs']
    simp only [hf]

/-- **A place is resolved alike** in two environments that agree on all places that it leads to. -/
theorem typeUpTo_congr {S : Place → Prop} (same : ∀ q, S q → Γ'.walk q = Γ.walk q)
    (next : ∀ q t, S q → Γ.Follows q t → S t) (hq : S q) :
    typeUpTo Γ' n q = typeUpTo Γ n q := by
  induction n generalizing q with
  | zero => rfl
  | succ n ih =>
    have h := same q hq
    rw [typeUpTo, typeUpTo, Env.declared, Env.declared]
    cases hs : Γ.get? q.name with
    | none =>
      rw [Env.walk_eq_none.2 hs] at h
      rw [Env.walk_eq_none.1 h]
      rfl
    | some s =>
      rw [Env.walk_eq_some.2 ⟨s, hs, rfl⟩] at h
      obtain ⟨s', hs', hf'⟩ := Env.walk_eq_some.1 h
      rw [hs']
      simp only [Traced.ok_bind, hf']
      cases hf : s.ty.follow q.path with
      | crossed m ps rest =>
        have targets : ∀ r ∈ ps.toList.map (·.extend rest), typeUpTo Γ' n r = typeUpTo Γ n r := by
          intro r hr
          obtain ⟨t, ht, rfl⟩ := List.mem_map.1 hr
          exact ih (next q _ hq ⟨s, m, ps, rest, t, hs, hf, ht, rfl⟩)
        exact Approximates.antisymm (.unionOver fun r hr => .of_eq (targets r hr))
          (.unionOver fun r hr => .of_eq (targets r hr).symm)
      | _ => rfl

namespace Env

/-- **The place comes to the same in both environments.** -/
structure Unchanged (Γ Γ' : Env) (q : Place) : Prop where
  /-- It has the same type, or the same is wrong with it, however many borrows may be crossed. -/
  upTo : ∀ n, typeUpTo Γ' n q = typeUpTo Γ n q
  /-- It has a type in both or in none. -/
  typed : ∀ T, typeOf Γ' q = .ok T ↔ typeOf Γ q = .ok T
  /-- What it has in both is the same, unless one of them gives up on borrows that lead on. -/
  typeOf : typeOf Γ q ≠ .error .endless → typeOf Γ' q ≠ .error .endless →
    typeOf Γ' q = typeOf Γ q
  /-- It can be read if it could be, and written if it could be. -/
  availability : ∀ write, availability Γ' q write = availability Γ q write

namespace Unchanged

/-- Environments that agree on all that a place leads to do not change it. -/
theorem of_congr {S : Place → Prop} (same : ∀ q, S q → Γ'.walk q = Γ.walk q)
    (next : ∀ q t, S q → Γ.Follows q t → S t) (hq : S q) : Γ.Unchanged Γ' q where
  upTo _ := typeUpTo_congr same next hq
  typed T := by
    rw [typeOf_ok, typeOf_ok]
    exact exists_congr fun n => by rw [typeUpTo_congr same next hq]
  typeOf := by
    intro hold hnew
    rw [Ownership.typeOf] at hold hnew ⊢
    rw [Ownership.typeOf]
    rw [typeUpTo_congr same next hq] at hnew ⊢
    generalize crossings Γ.weight _ q = n at hold ⊢
    generalize crossings Γ'.weight _ q = k at hnew ⊢
    -- the lower of the two bounds is high enough
    rcases Nat.le_total n k with hnk | hkn
    · exact ((Approximates.typeUpTo hnk).resolve_left hold).symm
    · exact (Approximates.typeUpTo hkn).resolve_left hnew
  availability := availability_congr (same q hq)

/-- **What is borrowed nowhere can be changed without notice elsewhere.** -/
theorem insert (hs : Γ.get? p.name = some s) (hf : s.ty.follow p.path = .reached old)
    (hp : Γ.writeProhibited p = false) (hq : p.conflicts q = false) :
    Γ.Unchanged (Γ.insert p.name ⟨s.ty.replaceAt p.path new, s.lifetime⟩) q := by
  refine of_congr (S := fun q => p.conflicts q = false) (fun q hq => ?_) (fun q t _ ht => ?_) hq
  · rw [walk, walk, NameMap.get?_insert]
    by_cases hname : q.name = p.name
    · have hmeet : Place.pathsMeet q.path p.path = false := by
        simpa [Place.conflicts, hname] using (Place.conflicts_comm q p).trans hq
      rw [if_pos hname, hname, hs, Option.map_some, Option.map_some,
        Ty.follow_replaceAt_of_apart hf hmeet]
    · rw [if_neg hname]
  · -- what is behind a borrow is a target of it, or below one
    obtain ⟨s', m, ps, rest, t, hs', hf', ht, rfl⟩ := ht
    have hlent : t.conflicts p = false :=
      (Ty.lends_of_crossed hf' ht).not_conflicts (slot_not_prohibitsWriting hp hs')
    cases hc : p.conflicts (t.extend rest) with
    | false => rfl
    | true =>
      rw [Place.conflicts_comm, Place.conflicts_of_extend hc] at hlent
      cases hlent

end Unchanged

end Env

/-! ### Places that are gone, and places that are written -/

namespace Ty

variable {t : Ty}

/-- What is reached is reached by way of the parts around it. -/
theorem reached_of_append (h : t.follow (π ++ ρ) = .reached u) :
    ∃ v, t.follow π = .reached v ∧ v.follow ρ = .reached u := by
  induction π generalizing t with
  | nil => exact ⟨t, follow_nil t, h⟩
  | cons a π ih =>
    cases t with
    | box t =>
      cases a with
      | deref => exact ih (t := t) h
      | index i => cases h
    | compound ts =>
      cases a with
      | deref => cases h
      | index i =>
        simp only [List.cons_append, follow] at h ⊢
        split at h
        · exact ih h
        · cases h
    | _ => cases a <;> cases h

end Ty

/-- **Above and below a shadow everything is gone.** -/
theorem availability_moved (hs : Γ.get? p.name = some s)
    (hf : s.ty.follow p.path = .reached (.shadow u)) (hq : p.conflicts q = true) :
    availability Γ q false = .moved := by
  obtain ⟨hname, hpath⟩ := Place.conflicts_iff.1 hq
  rw [availability, ← hname, hs]
  rcases hpath with ⟨ρ, hρ⟩ | ⟨ρ, hρ⟩
  · -- a part of the shadow, or the shadow itself
    have hwalk : s.ty.follow q.path = (Ty.shadow u).follow ρ := by
      rw [← hρ, Ty.follow_append_of_reached hf]
    cases ρ with
    | nil => simp [hwalk, Ty.follow_nil, Ty.defined]
    | cons a ρ => simp [hwalk, Ty.follow_shadow]
  · -- the shadow is a part of what is there
    rw [← hρ] at hf
    obtain ⟨v, hv, hshadow⟩ := Ty.reached_of_append hf
    have hgone : v.defined = false := by
      cases hd : v.defined with
      | false => rfl
      | true => exact absurd ((Ty.readable_of_defined hd).2 _ hshadow) Bool.false_ne_true
    simp [hv, hgone]

/-- What is gone was there. -/
theorem declared_of_moved {write : Bool} (h : availability Γ q write = .moved) :
    ∃ s, Γ.declared q = .ok s := by
  rw [availability] at h
  cases hs : Γ.get? q.name with
  | none => simp [hs] at h
  | some s => exact ⟨s, declared_ok.2 hs⟩

/-- What is written where no borrow is crossed stands in the stead of what was there. -/
theorem write_reached {variance : Variance}
    (h : write variance Γ p T true = .ok Γ') (hs : Γ.get? p.name = some s)
    (hf : s.ty.follow p.path = .reached old) :
    Γ' = Γ.insert p.name ⟨s.ty.replaceAt p.path T, s.lifetime⟩ := by
  rw [write] at h
  generalize crossings _ _ p = n at h
  cases n with
  | zero => cases h
  | succ n =>
    obtain ⟨s', hadm, ⟨old', new, -, rfl, hnew⟩ | ⟨ps, rest, -, hf', -⟩⟩ := writeUpTo_ok h
    · cases hs.symm.trans hadm.slot
      rcases hnew with ⟨-, rfl⟩ | ⟨⟨⟩, -⟩
      rfl
    · cases hs.symm.trans hadm.slot
      cases hf.symm.trans hf'

namespace Checker

theorem read_moved {kind : AccessKind} (h : availability Γ q false = .moved) :
    c.read Γ kind q = .error (.moved q) := by
  obtain ⟨s, hs⟩ := declared_of_moved h
  simp only [read, hs, require, h, Traced.ok_bind, Traced.error_bind]

theorem borrow_moved (h : availability Γ q false = .moved) :
    borrow Γ m q = .error (.notReadable q) := by
  obtain ⟨s, hs⟩ := declared_of_moved h
  simp only [borrow, hs, require, h, Traced.ok_bind, Traced.error_bind]

/-! ### Moves -/

/-- **A move takes out one place.** Places that contain it, or lie in it, are gone after it: no
access reads them, and they cannot be borrowed. All others come to what they came to. -/
theorem apply_move {kind : AccessKind}
    (h : (c.apply Γ l (.access sp kind p)).result = .ok (Γ', T))
    (hmove : c.copies kind p T = .ok false) :
    (∀ x, x ≠ p.name → Γ'.get? x = Γ.get? x) ∧
      (∀ q, p.conflicts q = true → ∀ (c' : Checker) (l' : Lifetime) (sp' : Span),
        (∀ kind', (c'.apply Γ' l' (.access sp' kind' q)).result = .error ⟨.moved q, sp'⟩) ∧
          ∀ m, (c'.apply Γ' l' (.borrow sp' m q)).result = .error ⟨.notReadable q, sp'⟩) ∧
      ∀ q, p.conflicts q = false → Γ.Unchanged Γ' q := by
  obtain ⟨s, hs, -, -, ⟨hcopy, -⟩ | ⟨-, hw, u, hf, rfl⟩⟩ := read_ok (apply_access h)
  · rw [hmove] at hcopy
    cases hcopy
  refine ⟨fun x hx => by rw [NameMap.get?_insert, if_neg hx], fun q hq c' l' sp' => ?_,
    fun q hq => .insert hs hf hw hq⟩
  have hs' := NameMap.get?_insert_self Γ p.name ⟨s.ty.replaceAt p.path (.shadow u), s.lifetime⟩
  have hgone := availability_moved hs' (Ty.follow_replaceAt hf) hq
  constructor
  · intro kind'
    simp only [apply, offer_none, Traced.result_noteSuccess, Traced.result_lift]
    rw [read_moved hgone]
    rfl
  · intro m
    simp only [apply, offer_none, Traced.result_noteSuccess, Traced.result_bind, Traced.result_lift]
    rw [borrow_moved hgone]
    rfl

/-- A pair `x` of a box in a box and a number, and a unique borrow of the number. -/
def pairBorrowed : Env := .declaring (.inside 1 (.root 0))
  [("x", .compound [.box (.box .int), .int]), ("r", .borrowOf true ((Place.var "x").index 1))]

/-- The variables of `pairBorrowed` when the inner box has been moved out. -/
def pairTaken : Env := .declaring (.inside 1 (.root 0))
  [("x", .compound [.box (.shadow (.box .int)), .int]),
    ("r", .borrowOf true ((Place.var "x").index 1))]

theorem apply_move_inner :
    (apply {} pairBorrowed (.inside 1 (.root 0))
      (.access {} .inferred ((Place.var "x").index 0).deref)).result =
        .ok (pairTaken, .box .int) ∧
    copies {} .inferred ((Place.var "x").index 0).deref (.box .int) = .ok false ∧
    pairTaken.get? "r" = pairBorrowed.get? "r" ∧
    (∀ kind, (apply {} pairTaken (.inside 1 (.root 0)) (.access {} kind (.var "x"))).result =
      .error ⟨.moved (.var "x"), {}⟩) ∧
    (∀ m, (apply {} pairTaken (.inside 1 (.root 0))
      (.borrow {} m ((Place.var "x").index 0).deref.deref)).result =
        .error ⟨.notReadable ((Place.var "x").index 0).deref.deref, {}⟩) ∧
    pairBorrowed.Unchanged pairTaken (Place.var "r").deref := by
  have hread : (apply {} pairBorrowed (.inside 1 (.root 0))
      (.access {} .inferred ((Place.var "x").index 0).deref)).result =
        .ok (pairTaken, .box .int) := rfl
  obtain ⟨hothers, hgone, hsame⟩ := apply_move hread rfl
  exact ⟨hread, rfl, hothers "r" (by decide), (hgone (.var "x") rfl {} _ {}).1,
    (hgone ((Place.var "x").index 0).deref.deref rfl {} _ {}).2, hsame _ rfl⟩

/-! ### Assignments -/

/-- **An assignment that crosses no borrow changes one place.** The place has the type of the value
then, and can be read again if nothing has been moved out of the value. All places that do not
conflict with it come to what they came to. -/
theorem apply_assign_direct (h : (c.apply Γ l (.assign sp p source)).result = .ok (Γ₂, U))
    (hsource : (c.apply Γ l source).result = .ok (Γ₁, T)) (hs : Γ₁.get? p.name = some s)
    (hf : s.ty.follow p.path = .reached old) :
    typeOf Γ₂ p = .ok T ∧ (∀ x, x ≠ p.name → Γ₂.get? x = Γ₁.get? x) ∧
      (∃ s', Γ₂.get? p.name = some s' ∧ s'.lifetime = s.lifetime) ∧
      (∀ q, p.conflicts q = false → Γ₁.Unchanged Γ₂ q) ∧
      (availability Γ₂ p false = .available ↔ T.defined = true) := by
  obtain ⟨-, Γ₁', T', -, hsource', hassign, -⟩ := apply_assign h
  cases hsource.symm.trans hsource'
  obtain ⟨hw, -, hwrite⟩ := assign_ok hassign
  cases write_reached hwrite hs hf
  have hs' := NameMap.get?_insert_self Γ₁ p.name ⟨s.ty.replaceAt p.path T, s.lifetime⟩
  have hf' : (s.ty.replaceAt p.path T).follow p.path = .reached T := Ty.follow_replaceAt hf
  refine ⟨typeOf_of_typeUpTo (n := 1) (typeUpTo_of_reached hs' hf'),
    fun x hx => by rw [NameMap.get?_insert, if_neg hx], ⟨_, hs', rfl⟩,
    fun q hq => .insert hs hf hw hq, ?_⟩
  rw [availability, hs']
  cases hd : T.defined <;> simp [hf', hd]

theorem apply_assign_direct_refill :
    (apply {} pairTaken (.inside 1 (.root 0)) (.assign {} ((Place.var "x").index 0).deref
      (.box {} (.value {} (.int 3))))).result = .ok (pairBorrowed, .unit) ∧
    (apply {} pairTaken (.inside 1 (.root 0)) (.box {} (.value {} (.int 3)))).result =
      .ok (pairTaken, .box .int) ∧
    typeOf pairBorrowed ((Place.var "x").index 0).deref = .ok (.box .int) ∧
    availability pairTaken ((Place.var "x").index 0).deref false = .moved ∧
    availability pairBorrowed ((Place.var "x").index 0).deref false = .available ∧
    pairTaken.Unchanged pairBorrowed (Place.var "r").deref := by
  have hassign : (apply {} pairTaken (.inside 1 (.root 0)) (.assign {}
      ((Place.var "x").index 0).deref (.box {} (.value {} (.int 3))))).result =
        .ok (pairBorrowed, .unit) := rfl
  have hsource : (apply {} pairTaken (.inside 1 (.root 0))
      (.box {} (.value {} (.int 3)))).result = .ok (pairTaken, .box .int) := rfl
  have hx : pairTaken.get? "x" =
      some ⟨.compound [.box (.shadow (.box .int)), .int], .inside 1 (.root 0)⟩ := by decide
  obtain ⟨htype, -, -, hsame, hread⟩ := apply_assign_direct hassign hsource hx rfl
  exact ⟨hassign, hsource, htype, rfl, hread.2 rfl, hsame _ rfl⟩

end Checker

end Ownership
