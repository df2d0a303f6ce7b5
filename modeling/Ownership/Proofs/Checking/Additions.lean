import Ownership.Proofs.Checking.Isolation
import Ownership.Proofs.Checking.Recorded

/-!
# What a write adds

A write behind a borrow may go to any target of the borrow, and to any of theirs, so at each of them
the type that was there stays and the new one is joined to it. No variable forgets a borrow or a
shadow, whichever targets the write comes to, however often, and in whatever order.

The write goes from one target to the next in the environment that the targets before have left
(`Env.Touches`). Where a way ends in a place that another way goes on through, the second one may
find targets there that the first one has put there. In an environment whose variables have shapes
this cannot be, since such a place would be a part of itself (`Env.Shaped.touches`).

* `Env.Grown`: what a slot may have become, with `Env.Grown.put` for one update.
* `write_adds`: **a weak write only adds**, and only where ways through unique borrows lead.
* `write_adds_looped`: a write that goes on through a target that it has added itself.
-/

namespace Ownership

open Relation

variable {variance : Variance} {Γ Γ₁ Γ' : Env} {p q t : Place} {T u old new : Ty} {s s' : Slot}
variable {n : Nat} {m strong : Bool} {ps : PlaceSet} {π ρ κ rest : List Selector} {x : String}
variable {σ : String → Shape}

namespace Ty

variable {a b c t : Ty}

/-- A union is not changed by what lies below it. -/
theorem union_of_under (h : a.Under b) : a.union b = some b := by
  obtain ⟨c, hu, hc⟩ := exists_union h (.refl b)
  rw [hu, hc.antisymm (under_of_union hu).2]

/-- **A borrow that is crossed in a union is one in both types**, and has the targets of both. -/
theorem crossed_of_union (h : a.union b = some c) (hf : c.follow κ = .crossed m ps rest) :
    ∃ qs rs, a.follow κ = .crossed m qs rest ∧ b.follow κ = .crossed m rs rest ∧ ps = qs ∪ rs := by
  have hj := joins_of_union h
  clear h
  induction hj generalizing κ with
  | unit => rcases κ with _ | ⟨_ | i, κ⟩ <;> cases hf
  | int => rcases κ with _ | ⟨_ | i, κ⟩ <;> cases hf
  | box _ ih =>
    rcases κ with _ | ⟨_ | i, κ⟩
    · cases hf
    · exact ih hf
    · cases hf
  | borrow =>
    rcases κ with _ | ⟨_ | i, κ⟩
    · cases hf
    · cases hf
      exact ⟨_, _, rfl, rfl, rfl⟩
    · cases hf
  | shadow =>
    cases κ with
    | nil => cases hf
    | cons a κ =>
      rw [follow_shadow] at hf
      cases hf
  | compound hcs _ ih =>
    rcases κ with _ | ⟨_ | i, κ⟩
    · cases hf
    · cases hf
    · simp only [follow] at hf ⊢
      split at hf
      · rename_i c hc
        obtain ⟨-, -, hunions⟩ := unionAll_getElem? hcs
        obtain ⟨a, b, ha, hb, -⟩ := hunions i c hc
        rw [ha, hb]
        exact ih i a b c ha hb hc hf
      · cases hf

/-- A borrow that is crossed after a part has been replaced was crossed before, or lies in the new
part. -/
theorem crossed_of_replaceAt (hf : t.follow π = .reached old)
    (hc : (t.replaceAt π new).follow ρ = .crossed m ps rest) :
    t.follow ρ = .crossed m ps rest ∨ ∃ κ, ρ = π ++ κ ∧ new.follow κ = .crossed m ps rest := by
  have hnew : (t.replaceAt π new).follow π = .reached new := follow_replaceAt hf
  cases hmeet : Place.pathsMeet ρ π with
  | false => exact .inl (by rwa [follow_replaceAt_of_apart hf hmeet] at hc)
  | true =>
    rcases Place.pathsMeet_iff.1 hmeet with ⟨κ, rfl⟩ | ⟨κ, rfl⟩
    · -- nothing is crossed on the way to the new part
      obtain ⟨v, hv, -⟩ := reached_of_append hnew
      cases hv.symm.trans hc
    · exact .inr ⟨κ, rfl, by rwa [follow_append_of_reached hnew] at hc⟩

end Ty

/-- A variable that is the same after both arms is so after the conditional. -/
theorem Joined.of_same {Γ₂ J : Env} (h : Joined variance Γ₁ Γ₂ J x s) (hs : Γ₂.get? x = some s) :
    J.get? x = some s := by
  obtain ⟨s', t, hs', -, -, hu, hJ⟩ := h
  cases hs.symm.trans hs'
  cases hu.symm.trans (Ty.union_of_under (.refl s.ty))
  exact hJ

namespace Env

/-! ### Ways of a write -/

/-- Where a write to `p` goes on: behind each target of the unique borrow that `p` crosses. -/
def writtenNext (Γ : Env) (p : Place) : List Place :=
  match Γ.walk p with
  | some (.crossed true targets rest) => targets.toList.map (·.extend rest)
  | _ => []

theorem mem_writtenNext : q ∈ Γ.writtenNext p ↔
    ∃ ps rest t, Γ.walk p = some (.crossed true ps rest) ∧ t ∈ ps ∧ q = t.extend rest := by
  rw [writtenNext]
  split
  · rename_i targets rest hw
    rw [List.mem_map, hw]
    constructor
    · rintro ⟨t, ht, rfl⟩
      exact ⟨targets, rest, t, rfl, ht, rfl⟩
    · rintro ⟨ps, ρ, t, e, ht, rfl⟩
      cases e
      exact ⟨t, ht, rfl⟩
  · rename_i hw
    simp only [List.not_mem_nil, false_iff, not_exists, not_and]
    exact fun ps rest t e => absurd e (hw ps rest)

/-- Ways do not leave a list of places that they go on in. -/
theorem mem_of_ways {S : List Place} (hS : ∀ q ∈ S, ∀ t ∈ Γ.writtenNext q, t ∈ S) (hp : p ∈ S)
    (hq : ReflTransGen (fun q t => t ∈ Γ.writtenNext q) p q) : q ∈ S := by
  induction hq with
  | refl => exact hp
  | tail _ ht ih => exact hS _ ih _ ht

/-- **The places that a write of `T` to `p` may come to.** Where one of them is an end, the write
adds the targets that `T` has there, and another way that goes on behind it finds them. -/
inductive Touches (Γ : Env) (T : Ty) (p : Place) : Place → Prop where
  | start : Touches Γ T p p
  | next {q t : Place} : Touches Γ T p q → t ∈ Γ.writtenNext q → Touches Γ T p t
  | added {q t : Place} {κ rest : List Selector} {u : Ty} {ps rs : PlaceSet} :
      Touches Γ T p q → Γ.walk q = some (.reached u) →
      Touches Γ T p (q.extend κ) → u.follow κ = .crossed true ps rest →
      T.follow κ = .crossed true rs rest → t ∈ rs → Touches Γ T p (t.extend rest)

/-- **In an environment with shapes a write comes to nothing but targets that are there at first.**
All ways lead to places of one shape, and no shape is a proper part of itself. -/
theorem Shaped.touches (h : Γ.Shaped σ) (hq : Γ.Touches T p q) :
    ReflTransGen (fun q t => t ∈ Γ.writtenNext q) p q ∧
      (σ q.name).part q.path = (σ p.name).part p.path := by
  induction hq with
  | start => exact ⟨.refl, rfl⟩
  | next _ hnext ih =>
    refine ⟨ih.1.tail hnext, ?_⟩
    obtain ⟨ps, rest, t, hw, ht, rfl⟩ := mem_writtenNext.1 hnext
    obtain ⟨s, hs, hf⟩ := walk_eq_some.1 hw
    exact (((h _ s hs).crossed hf).2 t ht).trans ih.2
  | @added q t κ rest u ps rs _ hw _ hu _ _ ih ih' =>
    obtain ⟨s, hs, hf⟩ := walk_eq_some.1 hw
    have hfits := (h _ s hs).reached hf
    cases κ with
    | nil =>
      rw [Ty.follow_nil] at hu
      cases hu
    | cons a κ =>
      refine absurd ?_ (Shape.part_ne_self (a := a) (π := κ) hfits.ne_misfit)
      rw [← Shape.part_append]
      exact ih'.2.trans ih.2.symm

/-! ### Slots that grow -/

/-- **What the slot `s` of `x` may have become** while `T` is written to `p`. -/
structure Grown (Γ : Env) (T : Ty) (p : Place) (x : String) (s s' : Slot) : Prop where
  lifetime : s'.lifetime = s.lifetime
  under : s.ty.Under s'.ty
  untouched : (∀ q, Γ.Touches T p q → q.name ≠ x) → s' = s
  /-- A target of a borrow was there at first, or has been added with `T`. -/
  target : ∀ π m ps rest t, s'.ty.follow π = .crossed m ps rest → t ∈ ps →
    (∃ qs, s.ty.follow π = .crossed m qs rest ∧ t ∈ qs) ∨
      ∃ ν κ u rs, π = ν ++ κ ∧ Γ.Touches T p ⟨x, ν⟩ ∧ s.ty.follow ν = .reached u ∧
        T.follow κ = .crossed m rs rest ∧ t ∈ rs

namespace Grown

theorem refl (s : Slot) : Γ.Grown T p x s s :=
  ⟨rfl, .refl s.ty, fun _ => rfl, fun _ _ ps _ _ hf ht => .inl ⟨ps, hf, ht⟩⟩

/-- The write goes on to places that are accounted for. -/
theorem next (h : Γ.Grown T p q.name s s') (hs : Γ.get? q.name = some s)
    (hq : Γ.Touches T p q) (hf : s'.ty.follow q.path = .crossed true ps rest) (ht : t ∈ ps) :
    Γ.Touches T p (t.extend rest) := by
  rcases h.target _ _ _ _ t hf ht with ⟨qs, hf₀, ht⟩ | ⟨ν, κ, u, rs, hπ, hν, hu, hT, ht⟩
  · exact hq.next (mem_writtenNext.2 ⟨qs, rest, t, walk_eq_some.2 ⟨s, hs, hf₀⟩, ht, rfl⟩)
  · -- the borrow lies in a place where the write has ended before
    obtain ⟨qs, hf₀, -⟩ := Ty.Below.crossed h.under hf
    rw [hπ, Ty.follow_append_of_reached hu] at hf₀
    have hq' : Γ.Touches T p (Place.extend ⟨q.name, ν⟩ κ) := by
      rw [Place.extend, ← hπ]
      exact hq
    exact .added hν (walk_eq_some.2 ⟨s, hs, hu⟩) hq' hf₀ hT ht

/-- **An update adds to the slot** what is written. -/
theorem put (h : Γ.Grown T p q.name s s') (hq : Γ.Touches T p q)
    (hf : s'.ty.follow q.path = .reached old) (hu : old.union T = some new) :
    Γ.Grown T p q.name s ⟨s'.ty.replaceAt q.path new, s'.lifetime⟩ where
  lifetime := h.lifetime
  under := h.under.trans (.of_replaceAt hf (Ty.under_of_union hu).1)
  untouched hx := absurd rfl (hx q hq)
  target := by
    intro π m ps rest t hc ht
    rcases Ty.crossed_of_replaceAt hf hc with hc | ⟨κ, rfl, hnew⟩
    · exact h.target π m ps rest t hc ht
    · obtain ⟨qs, rs, hold, hT, rfl⟩ := Ty.crossed_of_union hu hnew
      rcases PlaceSet.mem_union.1 ht with ht | ht
      · refine h.target _ m qs rest t ?_ ht
        rw [Ty.follow_append_of_reached hf, hold]
      · obtain ⟨u, hu₀, -⟩ := Ty.Below.reached h.under hf
        exact .inr ⟨q.path, κ, u, rs, rfl, hq, hu₀, hT, ht⟩

end Grown

/-- After a weak write every slot has grown from what it was. -/
theorem grown_of_writeUpTo (h : writeUpTo variance T n false Γ p = .ok Γ') :
    Γ.Slots (fun x s' => ∃ s, Γ.get? x = some s ∧ Γ.Grown T p x s s') Γ' := by
  refine writeUpTo_slots (Q := Γ.Touches T p) ?_ ?_ ⟨fun _ => Iff.rfl, fun x s hs =>
    ⟨s, hs, .refl s⟩⟩ .start h
  · rintro q s' ps rest t hq ⟨s, hs, hgrown⟩ hf ht
    exact hgrown.next hs hq hf ht
  · intro Γ₁ q s' old new h₁ hq hadm hf hnew
    have hu : old.union T = some new := hnew.resolve_left (absurd ·.1 Bool.false_ne_true)
    obtain ⟨s, hs, hgrown⟩ := h₁.slot _ _ hadm.slot
    exact ⟨s, hs, hgrown.put hq hf hu⟩

/-- **After a write every slot has grown from what it was**, but for one that is written itself. -/
theorem grown_of_write (h : write variance Γ p T strong = .ok Γ') :
    Γ.Slots (fun x s' => ∃ s, Γ.get? x = some s ∧ s'.lifetime = s.lifetime ∧
      (x ≠ p.name ∨ strong = false → Γ.Grown T p x s s')) Γ' := by
  have weak : ∀ {n}, writeUpTo variance T n false Γ p = .ok Γ' →
      Γ.Slots (fun x s' => ∃ s, Γ.get? x = some s ∧ s'.lifetime = s.lifetime ∧
        (x ≠ p.name ∨ strong = false → Γ.Grown T p x s s')) Γ' := by
    intro n h
    have hgrown := grown_of_writeUpTo h
    refine ⟨hgrown.names, fun x s' hs' => ?_⟩
    obtain ⟨s, hs, hg⟩ := hgrown.slot x s' hs'
    exact ⟨s, hs, hg.lifetime, fun _ => hg⟩
  rw [write] at h
  generalize crossings _ _ p = n at h
  cases n with
  | zero => cases h
  | succ n =>
    cases strong with
    | false => exact weak h
    | true =>
      obtain ⟨s, hadm, ⟨old, new, hf, rfl, -⟩ | ⟨ps, rest, -, hf, -⟩⟩ := writeUpTo_ok h
      · refine .insert ⟨fun _ => Iff.rfl, fun x s hs => ⟨s, hs, rfl, fun _ => .refl s⟩⟩
          hadm.slot ⟨s, hadm.slot, rfl, fun hx => absurd hx (by simp)⟩
      · rw [writeUpTo_crossed hadm.slot hf] at h
        exact weak h

end Env

/-- **A weak write only adds.** The variables stay, with their lifetimes, and the union of what one
was and what it has become is what it has become. That is so for all variables, but for one that is
written itself, and not behind a borrow. A variable that the write does not come to stays as it is;
if variables have shapes, it comes to those only that unique borrows lead to from `p`. -/
theorem write_adds (h : write variance Γ p T strong = .ok Γ') :
    (∀ x, Γ'.get? x = none ↔ Γ.get? x = none) ∧
      ∀ x s, Γ.get? x = some s → ∃ s', Γ'.get? x = some s' ∧ s'.lifetime = s.lifetime ∧
        (x ≠ p.name ∨ strong = false → s.ty.union s'.ty = some s'.ty) ∧
        (x ≠ p.name → (∀ q, Γ.Touches T p q → q.name ≠ x) → s' = s) ∧
        (x ≠ p.name → (∃ σ, Γ.Shaped σ) →
          (∀ q, ReflTransGen (fun q t => t ∈ Γ.writtenNext q) p q → q.name ≠ x) → s' = s) := by
  have hslots := Env.grown_of_write h
  refine ⟨hslots.names, fun x s hs => ?_⟩
  obtain ⟨s', hs', s₀, hs₀, hl, hgrown⟩ := hslots.bound hs
  cases hs.symm.trans hs₀
  refine ⟨s', hs', hl, fun hx => Ty.union_of_under (hgrown hx).under,
    fun hx => (hgrown (.inl hx)).untouched, ?_⟩
  rintro hx ⟨σ, hσ⟩ hfar
  exact (hgrown (.inl hx)).untouched fun q hq => hfar q (hσ.touches hq).1

/-- The shapes of the variables of `beforeEither`. -/
def eitherShapes : String → Shape
  | "x" | "y" => .ref true .int
  | "u" => .ref true (.ref true .int)
  | _ => .int

theorem shaped_beforeEither : beforeEither.Shaped eitherShapes := by
  have hu : (Ty.borrow true (.ofList [.var "x", .var "y"])).Fits eitherShapes
      (.ref true (.ref true .int)) :=
    .borrow ⟨.var "x", by decide⟩ (by simp [eitherShapes, Place.var])
  have hx : (Ty.borrowOf true (.var "a")).Fits eitherShapes (.ref true .int) :=
    .borrow ⟨.var "a", by decide⟩ (by simp [eitherShapes, Place.var])
  have hy : (Ty.borrowOf true (.var "b")).Fits eitherShapes (.ref true .int) :=
    .borrow ⟨.var "b", by decide⟩ (by simp [eitherShapes, Place.var])
  have all : ∀ e ∈ beforeEither.entries, e.2.ty.Fits eitherShapes (eitherShapes e.1) := by
    rw [show beforeEither.entries = [("a", ⟨.int, .inside 1 (.root 0)⟩),
      ("b", ⟨.int, .inside 1 (.root 0)⟩), ("c", ⟨.int, .inside 1 (.root 0)⟩),
      ("u", ⟨.borrow true (.ofList [.var "x", .var "y"]), .inside 1 (.root 0)⟩),
      ("x", ⟨.borrowOf true (.var "a"), .inside 1 (.root 0)⟩),
      ("y", ⟨.borrowOf true (.var "b"), .inside 1 (.root 0)⟩)] from rfl]
    simp only [List.forall_mem_cons]
    exact ⟨.int, .int, .int, hu, hx, hy, nofun⟩
  exact fun x s hs => all (x, s) (NameMap.mem_entries_iff.2 hs)

theorem write_adds_either :
    write .covariant beforeEither (Place.var "u").deref (.borrowOf true (.var "c")) true =
      .ok afterEither ∧
    (Ty.borrowOf true (.var "a")).union (.borrow true (.ofList [.var "a", .var "c"])) =
      some (.borrow true (.ofList [.var "a", .var "c"])) ∧
    afterEither.get? "b" = beforeEither.get? "b" := by
  have h : write .covariant beforeEither (Place.var "u").deref (.borrowOf true (.var "c")) true =
      .ok afterEither := rfl
  obtain ⟨-, hslots⟩ := write_adds h
  have hx : beforeEither.get? "x" =
      some ⟨.borrowOf true (.var "a"), .inside 1 (.root 0)⟩ := by decide
  have hb : beforeEither.get? "b" = some ⟨.int, .inside 1 (.root 0)⟩ := by decide
  obtain ⟨s, hs, -, hunion, -⟩ := hslots "x" _ hx
  obtain ⟨t, ht, -, -, -, hsame⟩ := hslots "b" _ hb
  refine ⟨h, ?_, ?_⟩
  · have hs' : afterEither.get? "x" =
        some ⟨.borrow true (.ofList [.var "a", .var "c"]), .inside 1 (.root 0)⟩ := by decide
    cases hs.symm.trans hs'
    exact hunion (.inl (by decide))
  · have names : ∀ q ∈ [(Place.var "u").deref, .var "x", .var "y"], q.name ≠ "b" := by decide
    rw [ht, hb, hsame (by decide) ⟨_, shaped_beforeEither⟩ fun q hq =>
      names q (Env.mem_of_ways (by decide) (by decide) hq)]

/-- One way from `*x` ends in `v`, and another one goes on through `*v`. What `v` and `*v` borrow
has one type, since `u` borrows itself. -/
def looped : Env := .declaring (.inside 1 (.root 0))
  [("u", .borrowOf true (.var "u")), ("k", .borrowOf true (.var "u")),
    ("r", .borrowOf true (.var "u")), ("v", .borrowOf true (.var "k")),
    ("x", .borrow true (.ofList [.var "v", (Place.var "v").deref]))]

/-- The variables of `looped` after `&mut r` has been written to `*x`. -/
def loopedAfter : Env := .declaring (.inside 1 (.root 0))
  [("u", .borrowOf true (.var "u")), ("k", .borrow true (.ofList [.var "r", .var "u"])),
    ("r", .borrow true (.ofList [.var "r", .var "u"])),
    ("v", .borrow true (.ofList [.var "k", .var "r"])),
    ("x", .borrow true (.ofList [.var "v", (Place.var "v").deref]))]

/-- **A write may come to where no way leads at first.** It has added the target `r` to `v` before
it goes on through `*v`. -/
theorem write_adds_looped :
    write .invariant looped (Place.var "x").deref (.borrowOf true (.var "r")) false =
      .ok loopedAfter ∧
    (∀ q, ReflTransGen (fun q t => t ∈ looped.writtenNext q) (Place.var "x").deref q →
      q.name ≠ "r") ∧
    looped.get? "r" = some ⟨.borrowOf true (.var "u"), .inside 1 (.root 0)⟩ ∧
    loopedAfter.get? "r" =
      some ⟨.borrow true (.ofList [.var "r", .var "u"]), .inside 1 (.root 0)⟩ := by
  have names : ∀ q ∈ [(Place.var "x").deref, .var "v", (Place.var "v").deref, .var "k"],
      q.name ≠ "r" := by decide
  exact ⟨rfl, fun q hq => names q (Env.mem_of_ways (by decide) (by decide) hq), by decide,
    by decide⟩

end Ownership
