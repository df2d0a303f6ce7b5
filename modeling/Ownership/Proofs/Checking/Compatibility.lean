import Ownership.Proofs.Checking.Pairs
import Ownership.Proofs.Checking.Sites

/-!
# Compatibility is symmetric and transitive

The comparison of two types goes down both of them at once, takes shadows off either side, and goes
on with what the first targets of two borrows store, each in its own environment. So it does the
same from the other side, and two comparisons with one type in the middle meet at the same places
there (`Ty.alike_swap`, `Ty.Alike.trans`). The referents are no parts of the types that borrow them:
both arguments are by the bound on the pairs of borrows in a row.

* `compatible_symmetric_transitive`: **compatibility is symmetric and transitive**, whatever the
  environments.
* `exists_union_of_compatible`: **compatible types have a union.**
-/

namespace Ownership

variable {R R₁ R₂ : Bool → PlaceSet → PlaceSet → Prop}
variable {refer refer' : Bool → PlaceSet → PlaceSet → Except Violation Bool}
variable {variance : Variance} {Γ Γ₁ Γ₂ Γ₃ : Env} {a b c : Ty} {as bs : List Ty} {n : Nat}
variable {m : Bool} {ps qs rs : PlaceSet} {p : Place}

namespace Ty

/-! ### The other way round -/

theorem alikeAll_swap (hl : as.length = bs.length)
    (each : ∀ a ∈ as, ∀ b, a.alike refer b = b.alike refer' a) :
    alikeAll refer as bs = alikeAll refer' bs as := by
  induction as generalizing bs with
  | nil =>
    cases bs with
    | nil => rfl
    | cons => cases hl
  | cons a as ih =>
    cases bs with
    | nil => cases hl
    | cons b bs =>
      have hrest := ih (Nat.succ.inj hl) fun a ha => each a (List.mem_cons_of_mem _ ha)
      rw [alikeAll, alikeAll, each a List.mem_cons_self b, hrest]

/-- **The comparison from the other side** says the same, if that holds of the borrows. -/
theorem alike_swap (h : ∀ m ps qs, refer m ps qs = refer' m qs ps) (a b : Ty) :
    a.alike refer b = b.alike refer' a := by
  induction a generalizing b with
  | shadow a ih => rw [alike, ih, alike_shadow]
  | unit =>
    induction b with
    | shadow b ih => rw [alike_shadow, ih, alike]
    | _ => simp only [alike, unshadowed]
  | int =>
    induction b with
    | shadow b ih => rw [alike_shadow, ih, alike]
    | _ => simp only [alike, unshadowed]
  | box a ih =>
    induction b with
    | shadow b ihb => rw [alike_shadow, ihb, alike]
    | box b =>
      simp only [alike, unshadowed]
      exact ih b
    | _ => simp only [alike, unshadowed]
  | borrow m ps =>
    induction b with
    | shadow b ih => rw [alike_shadow, ih, alike]
    | borrow n qs =>
      simp only [alike, unshadowed]
      by_cases e : m = n
      · subst e
        rw [if_pos rfl, if_pos rfl, h]
      · rw [if_neg e, if_neg (Ne.symm e)]
    | _ => simp only [alike, unshadowed]
  | compound as ih =>
    induction b with
    | shadow b ihb => rw [alike_shadow, ihb, alike]
    | compound bs =>
      simp only [alike, unshadowed]
      by_cases hl : as.length = bs.length
      · rw [if_pos hl, if_pos hl.symm]
        exact alikeAll_swap hl ih
      · rw [if_neg hl, if_neg (Ne.symm hl)]
    | _ => simp only [alike, unshadowed]

namespace Alike

/-! ### A type in the middle -/

theorem of_left (h : Alike R (.shadow a) b) : Alike R a b := by
  generalize e : Ty.shadow a = a' at h
  induction h with
  | left h => exact Ty.shadow.inj e ▸ h
  | right _ ih => exact .right (ih e)
  | _ => cases e

theorem of_right (h : Alike R a (.shadow b)) : Alike R a b := by
  generalize e : Ty.shadow b = b' at h
  induction h with
  | left _ ih => exact .left (ih e)
  | right h => exact Ty.shadow.inj e ▸ h
  | _ => cases e

/-- **Types that are alike to one in the middle are alike**, if that holds of the borrows. -/
theorem trans (h₁ : Alike R₁ a b) (h₂ : Alike R₂ b c)
    (hR : ∀ m ps qs rs, R₁ m ps qs → R₂ m qs rs → R m ps rs) : Alike R a c := by
  induction h₁ generalizing c with
  | left _ ih => exact .left (ih h₂)
  | right _ ih => exact ih h₂.of_left
  | unit =>
    induction c with
    | shadow c ih => exact .right (ih h₂.of_right)
    | unit => exact .unit
    | _ => cases h₂
  | int =>
    induction c with
    | shadow c ih => exact .right (ih h₂.of_right)
    | int => exact .int
    | _ => cases h₂
  | box _ ih =>
    induction c with
    | shadow c ihc => exact .right (ihc h₂.of_right)
    | box c =>
      cases h₂ with
      | box h₂ => exact .box (ih h₂)
    | _ => cases h₂
  | borrow h =>
    induction c with
    | shadow c ih => exact .right (ih h₂.of_right)
    | borrow n rs =>
      cases h₂ with
      | borrow h₂ => exact .borrow (hR _ _ _ _ h h₂)
    | _ => cases h₂
  | @compound as bs hl _ ih =>
    induction c with
    | shadow c ihc => exact .right (ihc h₂.of_right)
    | compound cs =>
      cases h₂ with
      | compound hl' each =>
        refine .compound (hl.trans hl') fun i a c ha hc => ?_
        obtain ⟨b, hb⟩ := Refines.exists_getElem? hl ha
        exact ih i a b ha hb (each i b c hb hc)
    | _ => cases h₂

/-! ### Unions -/

theorem peel_right (h : Alike R a b) : Alike R a b.peel := by
  cases b with
  | shadow b => exact h.of_right
  | _ => exact h

end Alike

theorem exists_union_shadow (ha : a.peel = a) (h : ∃ c, a.union b = some c) :
    ∃ c, a.union (.shadow b) = some c := by
  obtain ⟨c, hc⟩ := h
  exact ⟨.shadow c, by rw [union_shadow ⟨b, .inr rfl⟩, ha, peel, hc]; rfl⟩

/-- **Types that are alike have a union.** -/
theorem Alike.exists_union (h : Alike R a b) : ∃ c, a.union b = some c := by
  induction a generalizing b with
  | shadow a ih =>
    obtain ⟨c, hc⟩ := ih h.of_left.peel_right
    exact ⟨.shadow c, by rw [Ty.union, hc]; rfl⟩
  | unit =>
    induction b with
    | shadow b ihb => exact exists_union_shadow rfl (ihb h.of_right)
    | unit => exact ⟨.unit, rfl⟩
    | _ => cases h
  | int =>
    induction b with
    | shadow b ihb => exact exists_union_shadow rfl (ihb h.of_right)
    | int => exact ⟨.int, rfl⟩
    | _ => cases h
  | box a ih =>
    induction b with
    | shadow b ihb => exact exists_union_shadow rfl (ihb h.of_right)
    | box b =>
      cases h with
      | box h =>
        obtain ⟨c, hc⟩ := ih h
        exact ⟨.box c, by simp [Ty.union, beneath, hc]⟩
    | _ => cases h
  | borrow m ps =>
    induction b with
    | shadow b ihb => exact exists_union_shadow rfl (ihb h.of_right)
    | borrow n qs =>
      cases h with
      | borrow => exact ⟨_, Joins.borrow.union⟩
    | _ => cases h
  | compound as ih =>
    induction b with
    | shadow b ihb => exact exists_union_shadow rfl (ihb h.of_right)
    | compound bs =>
      cases h with
      | compound hl each =>
        obtain ⟨cs, hcs⟩ := Fits.unionAll hl fun i a b ha hb =>
          ih a (List.mem_of_getElem? ha) (each i a b ha hb)
        exact ⟨.compound cs, by simp [Ty.union, beneath, hcs]⟩
    | _ => cases h

end Ty

/-! ### Comparisons -/

/-- Nothing but borrows that lead back keeps a test for a type from ending. -/
theorem typeOf?_cases (Γ : Env) (p : Place) :
    typeOf? Γ p = .error .endless ∨ ∃ r, typeOf? Γ p = .ok r := by
  rw [typeOf?]
  split
  · exact .inr ⟨_, rfl⟩
  · exact .inl rfl
  · exact .inr ⟨_, rfl⟩

theorem compatibleUpTo_swap (n : Nat) (a b : Ty) :
    compatibleUpTo variance Γ₁ Γ₂ n a b = compatibleUpTo variance Γ₂ Γ₁ n b a := by
  induction n generalizing a b with
  | zero => rfl
  | succ n ih =>
    rw [compatibleUpTo, compatibleUpTo]
    refine Ty.alike_swap (fun m ps qs => ?_) a b
    cases ps.first? with
    | none => cases qs.first? <;> rfl
    | some p =>
      cases qs.first? with
      | none => rfl
      | some q =>
        -- both referents are looked up before they are compared, so it does not matter which first
        rcases typeOf?_cases Γ₁ p with hp | ⟨r₁, hp⟩ <;>
          rcases typeOf?_cases Γ₂ q with hq | ⟨r₂, hq⟩ <;>
          simp only [hp, hq, Traced.ok_bind, Traced.error_bind]
        cases r₁ with
        | none => cases r₂ <;> rfl
        | some r₁ =>
          cases r₂ with
          | none => rfl
          | some r₂ =>
            simp only [ih r₁ r₂, Bool.beq_comm (a := r₁)]

/-- **The comparison from the other side** has the same result, also where it does not end. -/
theorem compatible_comm (variance : Variance) (Γ₁ Γ₂ : Env) (a b : Ty) :
    compatible variance Γ₁ a b Γ₂ = compatible variance Γ₂ b a Γ₁ := by
  rw [compatible, compatible, Nat.mul_comm, compatibleUpTo_swap]

theorem compatibleUpTo_trans (h₁ : compatibleUpTo variance Γ₁ Γ₂ n a b = .ok true)
    (h₂ : compatibleUpTo variance Γ₂ Γ₃ n b c = .ok true) :
    compatibleUpTo variance Γ₁ Γ₃ n a c = .ok true := by
  induction n generalizing a b c with
  | zero => cases h₁
  | succ n ih =>
    rw [compatibleUpTo_succ] at h₁ h₂ ⊢
    refine h₁.trans h₂ fun m ps qs rs hr hr' => ?_
    obtain ⟨p, q, r₁, r₂, hp, hq, hr₁, hr₂, h⟩ := hr
    obtain ⟨q', p₃, r₂', r₃, hq', hp₃, hr₂', hr₃, h'⟩ := hr'
    -- the borrow in the middle has one first target, and that one type
    cases hq.symm.trans hq'
    cases hr₂.symm.trans hr₂'
    refine ⟨p, p₃, r₁, r₃, hp, hp₃, hr₁, hr₃, ?_⟩
    split
    · rename_i hinv
      rw [if_pos hinv] at h h'
      exact h.trans h'
    · rename_i hinv
      rw [if_neg hinv] at h h'
      exact ih h h'

theorem compatible_trans (h₁ : compatible variance Γ₁ a b Γ₂ = .ok true)
    (h₂ : compatible variance Γ₂ b c Γ₃ = .ok true) :
    compatible variance Γ₁ a c Γ₃ = .ok true := by
  obtain ⟨n, h₁⟩ := compatible_eq_true.1 h₁
  obtain ⟨k, h₂⟩ := compatible_eq_true.1 h₂
  exact compatible_of_compatibleUpTo (compatibleUpTo_trans
    (compatibleUpTo_mono h₁ (Nat.le_max_left n k)) (compatibleUpTo_mono h₂ (Nat.le_max_right n k)))

/-- **Compatibility is symmetric and transitive across environments.** The test has the same result
from the other side, and types that are compatible with one in the middle are compatible. -/
theorem compatible_symmetric_transitive (variance : Variance) (Γ₁ Γ₂ Γ₃ : Env) (a b c : Ty) :
    compatible variance Γ₁ a b Γ₂ = compatible variance Γ₂ b a Γ₁ ∧
      (compatible variance Γ₁ a b Γ₂ = .ok true → compatible variance Γ₂ b c Γ₃ = .ok true →
        compatible variance Γ₁ a c Γ₃ = .ok true) :=
  ⟨compatible_comm variance Γ₁ Γ₂ a b, compatible_trans⟩

/-- One variable, of type `t`. -/
def alone (x : String) (t : Ty) : Env := .declaring (.root 0) [(x, t)]

/-- `&mut x`, `⊥&mut y` and `&mut z`. Each variable holds a box, and nothing of it, all of it or
what is in it has been moved out. -/
theorem compatible_symmetric_transitive_moved :
    compatible .covariant (alone "x" (.box .int)) (.borrowOf true (.var "x"))
      (.shadow (.borrowOf true (.var "y"))) (alone "y" (.shadow (.box .int))) = .ok true ∧
    compatible .covariant (alone "y" (.shadow (.box .int))) (.shadow (.borrowOf true (.var "y")))
      (.borrowOf true (.var "z")) (alone "z" (.box (.shadow .int))) = .ok true ∧
    compatible .covariant (alone "x" (.box .int)) (.borrowOf true (.var "x"))
      (.borrowOf true (.var "z")) (alone "z" (.box (.shadow .int))) = .ok true ∧
    compatible .covariant (alone "x" (.box .int)) (.borrowOf true (.var "x"))
        (.shadow (.borrowOf true (.var "y"))) (alone "y" (.shadow (.box .int))) =
      compatible .covariant (alone "y" (.shadow (.box .int))) (.shadow (.borrowOf true (.var "y")))
        (.borrowOf true (.var "x")) (alone "x" (.box .int)) := by
  have h₁ : compatible .covariant (alone "x" (.box .int)) (.borrowOf true (.var "x"))
      (.shadow (.borrowOf true (.var "y"))) (alone "y" (.shadow (.box .int))) = .ok true := rfl
  have h₂ : compatible .covariant (alone "y" (.shadow (.box .int)))
      (.shadow (.borrowOf true (.var "y"))) (.borrowOf true (.var "z"))
      (alone "z" (.box (.shadow .int))) = .ok true := rfl
  have both := compatible_symmetric_transitive .covariant (alone "x" (.box .int))
    (alone "y" (.shadow (.box .int))) (alone "z" (.box (.shadow .int)))
    (.borrowOf true (.var "x")) (.shadow (.borrowOf true (.var "y"))) (.borrowOf true (.var "z"))
  exact ⟨h₁, h₂, both.2 h₁ h₂, both.1⟩

/-- **Compatible types have a union.** -/
theorem exists_union_of_compatible (h : compatible variance Γ₁ a b Γ₂ = .ok true) :
    ∃ c, a.union b = some c := by
  rw [compatible, compatibleUpTo_succ] at h
  exact h.exists_union

end Ownership
