import Ownership.Proofs.Checking.Accepting
import Ownership.Proofs.Checking.Isolation
import Ownership.Proofs.Checking.Pairs

/-!
# Variables that two environments share

Two environments share the variables `N` if they bind them to the same slots. If all that is
borrowed in one of them is from these variables, a place in one of them comes to the same in both,
through whatever borrows it leads. So the two environments compare types alike, and a write to a
shared variable succeeds in both of them and leaves them sharing the variables. How many borrows may
be crossed depends on all variables, but not whether a place has a type (`typeOf_ok`).

* `Env.Shares.typeOf`, `Env.Shares.compatible`: **shared places have the same types, and what is
  compatible is so for both.**
* `Env.Shares.write`: **a write goes on in the shared variables only**, and as it does in the other
  environment.
-/

namespace Ownership

variable {variance : Variance} {Γ Γ₁ Γ₂ Γ' Δ Δ₁ Δ₂ Δ' : Env} {N : List String} {p q : Place}
variable {T U a b ty : Ty} {s : Slot} {l : Lifetime} {x : String} {n : Nat} {m strong : Bool}

/-- All that the type borrows is from the variables named in `N`. -/
def Ty.NamedIn (N : List String) (T : Ty) : Prop := ∀ m p, T.Lends m p → p.name ∈ N

namespace Env

/-- Nothing has changed but the variables named in `N`. -/
def Only (N : List String) (Γ Γ' : Env) : Prop := ∀ x, x ∉ N → Γ'.get? x = Γ.get? x

theorem Only.refl (Γ : Env) : Γ.Only N Γ := fun _ _ => rfl

theorem Only.insert (h : Γ.Only N Γ') (hx : x ∈ N) (s : Slot) : Γ.Only N (Γ'.insert x s) := by
  intro y hy
  rw [NameMap.get?_insert, if_neg (ne_of_mem_of_not_mem hx hy).symm, h y hy]

/-- **The variables named in `N` have the same slots**, and nothing else is borrowed. -/
structure Shares (N : List String) (Γ Δ : Env) : Prop where
  same : ∀ x ∈ N, Δ.get? x = Γ.get? x
  named : ∀ x s, Γ.get? x = some s → s.ty.NamedIn N

namespace Shares

/-! ### Places -/

theorem walk (h : Γ.Shares N Δ) (hq : q.name ∈ N) : Δ.walk q = Γ.walk q := by
  rw [Env.walk, Env.walk, h.same _ hq]

theorem availability (h : Γ.Shares N Δ) (hq : q.name ∈ N) (write : Bool) :
    availability Δ q write = availability Γ q write :=
  availability_congr (h.walk hq) write

/-- **A shared place comes to the same**, however many borrows may be crossed. -/
theorem typeUpTo (h : Γ.Shares N Δ) (hq : q.name ∈ N) (n : Nat) :
    typeUpTo Δ n q = typeUpTo Γ n q := by
  refine typeUpTo_congr (S := fun q => q.name ∈ N) (fun q hq => h.walk hq) ?_ hq
  rintro q - - ⟨s, m, ps, rest, t, hs, hf, ht, rfl⟩
  exact h.named _ s hs m t (Ty.lends_of_crossed hf ht)

theorem typeOf (h : Γ.Shares N Δ) (hq : q.name ∈ N) : typeOf Δ q = .ok T ↔ typeOf Γ q = .ok T := by
  rw [typeOf_ok, typeOf_ok]
  simp only [h.typeUpTo hq]

/-- What is found at a place borrows from shared variables. -/
theorem named_typeOf (h : Γ.Shares N Δ) (ht : Ownership.typeOf Γ q = .ok T) : T.NamedIn N := by
  intro m p hp
  obtain ⟨x, s, -, hs, hp⟩ := lends_of_typeOf ht hp
  exact h.named x s hs m p hp

theorem within (h : Γ.Shares N Δ) (hT : T.NamedIn N) (l : Lifetime) :
    Δ.within T l = Γ.within T l := by
  rw [Env.within, Env.within]
  refine Bool.eq_iff_iff.2 ?_
  simp only [List.all_eq_true]
  refine forall₂_congr fun p hp => ?_
  obtain ⟨m, hm⟩ := Ty.mem_borrowed.1 hp
  rw [h.same _ (hT m p hm)]

/-! ### Comparisons -/

theorem compatibleUpTo (h₁ : Γ₁.Shares N Δ₁) (h₂ : Γ₂.Shares N Δ₂) (ha : a.NamedIn N)
    (hb : b.NamedIn N) (h : compatibleUpTo variance Γ₁ Γ₂ n a b = .ok true) :
    compatibleUpTo variance Δ₁ Δ₂ n a b = .ok true := by
  induction n generalizing a b with
  | zero => cases h
  | succ n ih =>
    rw [compatibleUpTo_succ] at h ⊢
    refine h.mono fun m ps qs hps hqs hrefers => ?_
    obtain ⟨p, q, r₁, r₂, hp, hq, hr₁, hr₂, hcase⟩ := hrefers
    have hpN : p.name ∈ N := ha m p ⟨_, hps, rfl, List.mem_of_mem_head? hp⟩
    have hqN : q.name ∈ N := hb m q ⟨_, hqs, rfl, List.mem_of_mem_head? hq⟩
    refine ⟨p, q, r₁, r₂, hp, hq, (h₁.typeOf hpN).2 hr₁, (h₂.typeOf hqN).2 hr₂, ?_⟩
    split
    · rename_i hinv
      rwa [if_pos hinv] at hcase
    · rename_i hinv
      rw [if_neg hinv] at hcase
      exact ih (h₁.named_typeOf hr₁) (h₂.named_typeOf hr₂) hcase

/-- **What is compatible is so in environments that share the variables.** -/
theorem compatible (h₁ : Γ₁.Shares N Δ₁) (h₂ : Γ₂.Shares N Δ₂) (ha : a.NamedIn N)
    (hb : b.NamedIn N) (h : compatible variance Γ₁ a b Γ₂ = .ok true) :
    compatible variance Δ₁ a b Δ₂ = .ok true := by
  obtain ⟨n, hn⟩ := compatible_eq_true.1 h
  exact compatible_of_compatibleUpTo (h₁.compatibleUpTo h₂ ha hb hn)

/-! ### Writes -/

theorem insert (h : Γ.Shares N Δ) (hT : T.NamedIn N) (x : String) (l : Lifetime) :
    Shares N (Γ.insert x ⟨T, l⟩) (Δ.insert x ⟨T, l⟩) where
  same := by
    intro y hy
    rw [NameMap.get?_insert, NameMap.get?_insert, h.same y hy]
  named := by
    intro y s hs
    rcases NameMap.get?_insert_some hs with ⟨-, rfl⟩ | ⟨-, hs⟩
    · exact hT
    · exact h.named y s hs

theorem admits (h : Γ.Shares N Δ) (hp : p.name ∈ N) (hT : ty.NamedIn N)
    (ha : Admits variance Γ p ty s) : Admits variance Δ p ty s := by
  obtain ⟨current, ht, hc⟩ := ha.compatible
  exact ⟨(h.same _ hp).trans ha.slot, (h.within hT _).trans ha.within, current,
    (h.typeOf hp).2 ht, h.compatible h (h.named_typeOf ht) hT hc⟩

theorem writeUpTo (h : Γ.Shares N Δ) (hp : p.name ∈ N) (hT : ty.NamedIn N)
    (hw : writeUpTo variance ty n strong Γ p = .ok Γ') :
    ∃ Δ', writeUpTo variance ty n strong Δ p = .ok Δ' ∧ Γ'.Shares N Δ' ∧ Γ.Only N Γ' ∧
      Δ.Only N Δ' := by
  induction n generalizing strong Γ Δ p Γ' with
  | zero => cases hw
  | succ n ih =>
    obtain ⟨s, ha, ⟨old, new, hf, rfl, hnew⟩ | ⟨ps, rest, Γ₁, hf, hfold, rfl⟩⟩ := writeUpTo_ok hw
    · have hold : s.ty.NamedIn N := h.named _ s ha.slot
      have hput : (s.ty.replaceAt p.path new).NamedIn N := by
        intro m q hq
        exact (Ty.lends_of_put hf (hnew.imp And.right And.right) hq).elim (hold m q) (hT m q)
      exact ⟨_, writeUpTo_of_reached (h.admits hp hT ha) hf hnew, h.insert hput _ _,
        (Only.refl Γ).insert hp _, (Only.refl Δ).insert hp _⟩
    · -- each of the targets is a place in a shared variable
      have step : ∀ q ∈ ps.toList.map (·.extend rest), ∀ (Δ₁ Γ₁ Γ₂ : Env),
          (Γ₁.Shares N Δ₁ ∧ Γ.Only N Γ₁ ∧ Δ.Only N Δ₁) →
          Ownership.writeUpTo variance ty n false Γ₁ q = .ok Γ₂ →
          ∃ Δ₂, Ownership.writeUpTo variance ty n false Δ₁ q = .ok Δ₂ ∧
            Γ₂.Shares N Δ₂ ∧ Γ.Only N Γ₂ ∧ Δ.Only N Δ₂ := by
        rintro q hq Δ₁ Γ₁ Γ₂ ⟨h₁, hΓ, hΔ⟩ hw
        obtain ⟨t, ht, rfl⟩ := List.mem_map.1 hq
        have hN : (t.extend rest).name ∈ N :=
          h.named _ s ha.slot _ t (Ty.lends_of_crossed hf ht)
        obtain ⟨Δ₂, hw', h₂, hΓ₂, hΔ₂⟩ := ih h₁ hN hw
        exact ⟨Δ₂, hw', h₂, fun x hx => (hΓ₂ x hx).trans (hΓ x hx),
          fun x hx => (hΔ₂ x hx).trans (hΔ x hx)⟩
      obtain ⟨Δ₁, hfold', h₁, hΓ, hΔ⟩ := foldlM_follows
        (R := fun Δ₁ Γ₁ => Γ₁.Shares N Δ₁ ∧ Γ.Only N Γ₁ ∧ Δ.Only N Δ₁) step
        ⟨h, .refl Γ, .refl Δ⟩ hfold
      exact ⟨_, writeUpTo_of_crossed (h.admits hp hT ha) hf hfold',
        h₁.insert (h.named _ s ha.slot) _ _, hΓ.insert hp _, hΔ.insert hp _⟩

/-- **A write goes on in the shared variables only**, and succeeds in both environments. -/
theorem write (h : Γ.Shares N Δ) (hp : p.name ∈ N) (hT : T.NamedIn N) (hd : T.defined = true)
    (hw : write variance Γ p T strong = .ok Γ') :
    ∃ Δ', write variance Δ p T strong = .ok Δ' ∧ Γ'.Shares N Δ' ∧ Γ.Only N Γ' ∧ Δ.Only N Δ' := by
  obtain ⟨Δ', hw', hrest⟩ := h.writeUpTo hp hT hw
  exact ⟨Δ', write_of_writeUpTo hd hw', hrest⟩

end Shares

end Env

end Ownership
