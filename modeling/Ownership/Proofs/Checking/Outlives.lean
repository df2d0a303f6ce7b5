import Ownership.Proofs.Checking.Leaves
import Ownership.Proofs.Checking.Sites

/-!
# Nothing borrowed is gone

Every place that a variable borrows belongs to a variable that lives at least as long
(`Env.Lasting`). While operands are typed, those before them are parked in the outermost scope, and
what is parked there need not live as long as its new place. All that holds on the way is that
everything borrowed is in scope; what is parked is known by its name, and so is set apart
(`Env.Scoped`).

* `Checker.Situated.calls`: **everything is in scope wherever a part of a term is typed.**
* `Checker.lasting_of_apply`: **a term leaves no borrow behind that outlives its target**, and no
  environment on the way mentions a variable of a block that has been left.
-/

namespace Ownership

open Relation

variable {c : Checker} {Γ Γ₁ Γ' Δ : Env} {l inner : Lifetime} {K : List String} {T U : Ty}
variable {t : Term} {ss us : List Term} {s s' : Slot} {p : Place} {x : String} {sp : Span}
variable {o : Nat} {e : Bool} {lhs rhs onTrue onFalse : Term} {P : Parked} {a b : Site}

namespace Env

/-- **What is borrowed lives as long as what borrows it.** Every variable is declared in `l` or
around it. A place that it borrows, in a part that has been moved out or not, is one of a variable
that is bound, in the same scope or around it. -/
structure Lasting (l : Lifetime) (Γ : Env) : Prop where
  level : ∀ x s, Γ.get? x = some s → l.within s.lifetime = true
  targets : ∀ x s, Γ.get? x = some s → ∀ p ∈ s.ty.borrowed,
    ∃ s', Γ.get? p.name = some s' ∧ s.lifetime.within s'.lifetime = true

theorem Lasting.of_values
    (h : ∀ s ∈ Γ.values, l.within s.lifetime = true ∧ Γ.within s.ty s.lifetime = true) :
    Γ.Lasting l where
  level := fun _ s hs => (h s (NameMap.mem_values hs)).1
  targets := fun _ s hs _ hp => within_ok (h s (NameMap.mem_values hs)).2 hp

/-- With nothing parked, all that is in scope lasts. -/
theorem Lasting.scoped (h : Γ.Lasting l) : Γ.Scoped l [] .unit where
  level := h.level
  closed := by
    intro x s m p hs hp
    obtain ⟨s', hs', hw⟩ := h.targets x s hs p hp.borrowed
    exact ⟨List.not_mem_nil, s', hs', fun _ => hw⟩
  flight := fun _ _ hp => absurd hp Ty.not_lends_unit
  parked := nofun

namespace Scoped

theorem lasting (h : Γ.Scoped l [] T) : Γ.Lasting l where
  level := h.level
  targets := by
    intro x s hs p hp
    obtain ⟨m, hp⟩ := Ty.mem_borrowed.1 hp
    obtain ⟨-, s', hs', hw⟩ := h.closed x s m p hs hp
    exact ⟨s', hs', hw List.not_mem_nil⟩

/-- What has been evaluated borrows from open scopes. -/
theorem flight_open (h : Γ.Scoped l K T) (hp : p ∈ T.borrowed) :
    ∃ s', Γ.get? p.name = some s' ∧ l.within s'.lifetime = true := by
  obtain ⟨m, hp⟩ := Ty.mem_borrowed.1 hp
  obtain ⟨-, s', hs'⟩ := h.flight m p hp
  exact ⟨s', hs', h.level _ s' hs'⟩

/-- So does every variable. -/
theorem closed_open (h : Γ.Scoped l K T) (hs : Γ.get? x = some s) (hp : p ∈ s.ty.borrowed) :
    ∃ s', Γ.get? p.name = some s' ∧ l.within s'.lifetime = true := by
  obtain ⟨m, hp⟩ := Ty.mem_borrowed.1 hp
  obtain ⟨-, s', hs', -⟩ := h.closed x s m p hs hp
  exact ⟨s', hs', h.level _ s' hs'⟩

end Scoped

end Env

namespace Checker

/-- **The site is in order**: an orderly term, in an environment where everything is in scope. -/
structure Situated (c : Checker) (a : Site) : Prop where
  orderly : c.Orderly a.lifetime a.term
  scope : ∃ K, (c.extensions = [] → K = []) ∧ a.env.Scoped a.lifetime K .unit

namespace Situated

/-- What a site in order leaves. -/
theorem result (h : c.Situated a) (hr : (c.apply a.env a.lifetime a.term).result = .ok (Γ', T)) :
    ∃ K, Γ'.Scoped a.lifetime K T := by
  obtain ⟨K, hK, hΓ⟩ := h.scope
  exact ⟨K, (scoped_apply _ h.orderly hK hΓ hr).scope⟩

theorem statement (h : c.Situated ⟨Γ, l, .block sp inner (ss ++ t :: us)⟩)
    (hs : (c.sequence Γ inner .unit ss).result = .ok (Γ₁, T)) : c.Situated ⟨Γ₁, inner, t⟩ := by
  obtain ⟨K, hK, hΓ⟩ := h.scope
  have ho : ∀ u ∈ ss ++ t :: us, c.Orderly inner u := fun u hu => h.orderly.block hu
  obtain ⟨hΓ₁, -⟩ := scoped_sequence (fun u _ => scoped_apply u)
    (fun u hu => ho u (List.mem_append_left _ hu)) hK (hΓ.enter h.orderly.nested.1) hs
  exact ⟨ho t (by simp), K, hK, hΓ₁.forget⟩

theorem operand (h : c.Situated ⟨Γ, l, .ext sp o (ss ++ t :: us)⟩) (hc : c.extensions ≠ [])
    (hs : (c.park l ⟨Γ, []⟩ ss).result = .ok P) : c.Situated ⟨P.env, l, t⟩ := by
  obtain ⟨K, -, hΓ⟩ := h.scope
  have ho : ∀ u ∈ ss ++ t :: us, c.Orderly l u := fun u hu => h.orderly.ext hu
  have hparks := parks_of_park (fun u _ => scoped_apply u)
    (fun u hu => ho u (List.mem_append_left _ hu)) hc (.nil hΓ) hs
  exact ⟨ho t (by simp), _, fun he => absurd he hc, hparks.scope⟩

/-- Both arms of a conditional are typed in what is left when its operands have been released. -/
theorem arm {x y : Env × Ty} {us : List Ty}
    (h : c.Situated ⟨Γ, l, .ext sp o [lhs, rhs, onTrue, onFalse]⟩) (hc : c.extensions ≠ [])
    (hx : (c.apply Γ l lhs).result = .ok x)
    (hy : (c.apply (Parked.park l [] x).env l rhs).result = .ok y)
    (hrel : (Γ₁, us) = (Parked.park l (Parked.park l [] x).names y).release)
    (ht : t ∈ [lhs, rhs, onTrue, onFalse]) : c.Situated ⟨Γ₁, l, t⟩ := by
  obtain ⟨K, hK, hΓ⟩ := h.scope
  have hpark : (c.park l ⟨Γ, []⟩ [lhs, rhs]).result =
      .ok (Parked.park l (Parked.park l [] x).names y) := by
    rw [park_of_cons hx, park_last hy]
  have hP := parks_of_park (fun u _ => scoped_apply u)
    (fun u hu => h.orderly.ext (List.mem_append_left [onTrue, onFalse] hu)) hc (.nil hΓ) hpark
  cases hrel
  exact ⟨.ext h.orderly ht, K, hK, (hP.release hΓ).1.forget⟩

/-- **The parts of a site in order are in order**, where they are typed. -/
theorem calls (h : c.Situated a) (hab : c.Calls a b) : c.Situated b := by
  cases hab with
  | init => exact ⟨.letMut h.orderly, h.scope⟩
  | source => exact ⟨.assign h.orderly, h.scope⟩
  | content => exact ⟨.box h.orderly, h.scope⟩
  | statement hs => exact h.statement hs
  | operand hform hs => exact h.operand (extensions_of_form hform) hs
  | left => exact ⟨.ext h.orderly (by simp), h.scope⟩
  | @right Γ l sp o _ lhs rhs onTrue onFalse x hform hx =>
    have h : c.Situated ⟨Γ, l, .ext sp o ([lhs] ++ rhs :: [onTrue, onFalse])⟩ := h
    exact h.operand (extensions_of_form hform) (park_last (P := ⟨Γ, []⟩) hx)
  | onTrue hform hx hy hrel => exact h.arm (extensions_of_form hform) hx hy hrel (by simp)
  | onFalse hform hx hy hrel => exact h.arm (extensions_of_form hform) hx hy hrel (by simp)

theorem visits (h : c.Situated a) (hab : c.Visits a b) : c.Situated b := by
  induction hab with
  | refl => exact h
  | tail _ hstep ih => exact ih.calls hstep

/-- **Nothing on the way is borrowed from a block that has been left.** In an environment in which
a part is typed, or which it leaves, all variables and all that they borrow are of scopes that are
open there. -/
theorem reached (h : c.Situated a) (hab : c.Visits a b)
    (hΔ : Δ = b.env ∨ ∃ U, (c.apply b.env b.lifetime b.term).result = .ok (Δ, U))
    (hs : Δ.get? x = some s) : b.lifetime.within s.lifetime = true ∧ ∀ p ∈ s.ty.borrowed,
      ∃ s', Δ.get? p.name = some s' ∧ b.lifetime.within s'.lifetime = true := by
  have hb := h.visits hab
  have hscope : ∃ K U, Δ.Scoped b.lifetime K U := by
    rcases hΔ with rfl | ⟨U, hU⟩
    · obtain ⟨K, -, hΓ⟩ := hb.scope
      exact ⟨K, .unit, hΓ⟩
    · obtain ⟨K, hΓ'⟩ := hb.result hU
      exact ⟨K, U, hΓ'⟩
  obtain ⟨K, U, hΔ⟩ := hscope
  exact ⟨hΔ.level x s hs, fun p hp => hΔ.closed_open hs hp⟩

end Situated

/-- **No borrow outlives its target.** The blocks of the term are opened one inside the other, and
no name in it is one that the checker may make up. If what is borrowed lasts before the term, it
lasts after it, and what the term evaluates to borrows from open scopes only. On the way, too, no
environment mentions a variable of a block that has been left. -/
theorem lasting_of_apply (hΓ : Γ.Lasting l) (ht : t.Nested l)
    (hn : ∀ x ∈ t.names, ¬ "$tmp".toList <+: x.toList)
    (h : (c.apply Γ l t).result = .ok (Γ', T)) :
    Γ'.Lasting l ∧
    (∀ p ∈ T.borrowed, ∃ s', Γ'.get? p.name = some s' ∧ l.within s'.lifetime = true) ∧
    ∀ b Δ, c.Visits ⟨Γ, l, t⟩ b →
      (Δ = b.env ∨ ∃ U, (c.apply b.env b.lifetime b.term).result = .ok (Δ, U)) →
      ∀ x s, Δ.get? x = some s → b.lifetime.within s.lifetime = true ∧ ∀ p ∈ s.ty.borrowed,
        ∃ s', Δ.get? p.name = some s' ∧ b.lifetime.within s'.lifetime = true := by
  have ho : c.Orderly l t := ⟨ht, fun _ x hx => Env.ne_temporary (hn x hx)⟩
  have hleaves : Γ'.Scoped l [] T := (scoped_apply t ho (fun _ => rfl) hΓ.scoped h).scope
  have hsite : c.Situated ⟨Γ, l, t⟩ := ⟨ho, [], fun _ => rfl, hΓ.scoped⟩
  exact ⟨hleaves.lasting, fun p hp => hleaves.flight_open hp,
    fun b Δ hv hΔ x s hs => hsite.reached hv hΔ hs⟩

/-- `({ let mut z = &y; r = move z; }, &x)` -/
def lendsElsewhere : Term :=
  .ext {} 30 [
    .block {} (.inside 2 (.inside 1 (.root 0))) [.letMut {} "z" {} (.borrow {} false (.var "y")),
      .assign {} (.var "r") (.access {} .move (.var "z"))],
    .borrow {} false (.var "x")]

/-- The variables around `lendsElsewhere`, where `r` borrows the given one. -/
def lending (target : String) : Env := .declaring (.inside 1 (.root 0))
  [("r", .borrowOf false (.var target)), ("x", .int), ("y", .int)]

theorem lasting_of_apply_elsewhere :
    (lending "x").Lasting (.inside 1 (.root 0)) ∧ lendsElsewhere.Nested (.inside 1 (.root 0)) ∧
    (∀ x ∈ lendsElsewhere.names, ¬ "$tmp".toList <+: x.toList) ∧
    (Checker.apply { extensions := Extension.all } (lending "x") (.inside 1 (.root 0))
      lendsElsewhere).result =
        .ok (lending "y", .compound [.unit, .borrowOf false (.var "x")]) ∧
    (lending "y").Lasting (.inside 1 (.root 0)) ∧
    (∀ p ∈ (Ty.compound [.unit, .borrowOf false (.var "x")]).borrowed,
      ∃ s', (lending "y").get? p.name = some s' ∧
        (Lifetime.inside 1 (.root 0)).within s'.lifetime = true) ∧
    ∀ b Δ, Checker.Visits { extensions := Extension.all }
        ⟨lending "x", .inside 1 (.root 0), lendsElsewhere⟩ b →
      (Δ = b.env ∨ ∃ U, (Checker.apply { extensions := Extension.all } b.env b.lifetime
        b.term).result = .ok (Δ, U)) →
      ∀ x s, Δ.get? x = some s → b.lifetime.within s.lifetime = true ∧ ∀ p ∈ s.ty.borrowed,
        ∃ s', Δ.get? p.name = some s' ∧ b.lifetime.within s'.lifetime = true := by
  have hΓ : (lending "x").Lasting (.inside 1 (.root 0)) := .of_values (by decide)
  have ht : lendsElsewhere.Nested (.inside 1 (.root 0)) := by
    simp [lendsElsewhere, Term.Nested, Term.AllNested, Lifetime.parent?]
  have hn : ∀ x ∈ lendsElsewhere.names, ¬ "$tmp".toList <+: x.toList := by decide
  have h : (Checker.apply { extensions := Extension.all } (lending "x") (.inside 1 (.root 0))
      lendsElsewhere).result =
        .ok (lending "y", .compound [.unit, .borrowOf false (.var "x")]) := rfl
  exact ⟨hΓ, ht, hn, h, lasting_of_apply hΓ ht hn h⟩

end Checker

end Ownership
