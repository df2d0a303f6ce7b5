import Ownership.Proofs.Invariants
import Ownership.Proofs.Owners
import Ownership.Proofs.Soundness.Runs

/-!
# Blocks and the cells of variables

The cells of variables are freed with their block, by its lifetime; the cells of boxes are freed
with their owners. The two ways do not meet as long as no owner points to the cell of a variable,
and none is ever made to: an owner comes from a box, or it is a copy of another owner. So whatever
is done with owners inside a block, copies of them included, the block frees the cells of the
variables declared in it and in the blocks inside, and no cell of a variable from outside
(`Store.Apart.law`).

* `block_balances`: **a block leaves the frame and the cells of variables as it has found them.**
-/

namespace Ownership

namespace Store

variable {s s₀ : Store} {ks : List Lifetime} {k l : Lifetime} {rs rs' : List Reference}
variable {r : Reference} {a : Nat} {c : Cell} {v : Value}

/-- The cell of a variable is live at the address. -/
def Scoped (s : Store) (a : Nat) : Prop := ∃ c, s.cell? a = some c ∧ c.lifetime.isRoot = false

/-- **The cells of variables in the first store are there in the second**, with their lifetimes, and
apart from the cells of open blocks there are no others. No owner points to them. -/
structure Apart (s₀ : Store) (ks : List Lifetime) (s : Store) (rs : List Reference) : Prop where
  kept : ∀ a c₀, s₀.cell? a = some c₀ → c₀.lifetime.isRoot = false →
    ∃ c, s.cell? a = some c ∧ c.lifetime = c₀.lifetime
  opened : ∀ a c, s.cell? a = some c → c.lifetime.isRoot = false →
    s₀.Scoped a ∨ c.lifetime ∈ ks
  unowned : s.AllReferences (fun r => r.owner = true → ¬ s₀.Scoped r.address) rs

namespace Apart

theorem sub (h : s₀.Apart ks s rs)
    (hu : s.AllReferences (fun r => r.owner = true → ¬ s₀.Scoped r.address) rs') :
    s₀.Apart ks s rs' :=
  ⟨h.kept, h.opened, hu⟩

/-- A new cell is not one of those that were there. -/
theorem not_scoped_size (h : s₀.Apart ks s rs) : ¬ s₀.Scoped s.cells.size := by
  rintro ⟨c₀, hc₀, hl⟩
  obtain ⟨c, hc, -⟩ := h.kept _ c₀ hc₀ hl
  rw [cell?_size] at hc
  cases hc

theorem put (h : s₀.Apart ks s rs) (hc : s.cell? a = some c) (hv : v.references ⊆ rs) :
    s₀.Apart ks (s.put a ⟨c.lifetime, v⟩) rs where
  kept := by
    intro b c₀ hc₀ hl
    obtain ⟨d, hd, e⟩ := h.kept b c₀ hc₀ hl
    rw [cell?_put hc]
    split
    · rename_i hb
      rw [hb, hc] at hd
      cases hd
      exact ⟨_, rfl, e⟩
    · exact ⟨d, hd, e⟩
  opened := by
    intro b d hd hl
    rw [cell?_put hc] at hd
    split at hd
    · rename_i hb
      cases hd
      exact hb ▸ h.opened a c hc hl
    · exact h.opened b d hd hl
  unowned := h.unowned.put hc hv

theorem free (h : s₀.Apart ks s rs) (hr : r ∈ rs) (ho : r.owner = true) :
    s₀.Apart ks (s.free r.address) rs where
  kept := by
    intro b c₀ hc₀ hl
    have hb : b ≠ r.address := by
      rintro rfl
      exact h.unowned.held r hr ho ⟨c₀, hc₀, hl⟩
    obtain ⟨c, hc, e⟩ := h.kept b c₀ hc₀ hl
    exact ⟨c, cell?_free_eq_some.2 ⟨hb, hc⟩, e⟩
  opened := fun b d hd hl => h.opened b d (cell?_free_eq_some.1 hd).2 hl
  unowned := h.unowned.free r.address

theorem allocate (h : s₀.Apart ks s rs) (hv : v.references ⊆ rs)
    (hl : l.isRoot = true ∨ l ∈ ks) (owner : Bool) :
    s₀.Apart ks (s.allocate l v).1 (⟨s.cells.size, [], owner⟩ :: rs) where
  kept := by
    intro b c₀ hc₀ hl
    obtain ⟨c, hc, e⟩ := h.kept b c₀ hc₀ hl
    have hb : b ≠ s.cells.size := Nat.ne_of_lt (lt_of_cell? hc)
    rw [cell?_allocate, if_neg hb]
    exact ⟨c, hc, e⟩
  opened := by
    intro b d hd hd'
    rw [cell?_allocate] at hd
    split at hd
    · cases hd
      rcases hl with hl | hl
      · rw [hl] at hd'
        cases hd'
      · exact .inr hl
    · exact h.opened b d hd hd'
  unowned := (h.unowned.allocate l hv).cons fun _ => h.not_scoped_size

/-- A block is left whose lifetime was not in use before. -/
theorem leave (h : s₀.Apart (k :: ks) s rs) (hk : ∀ a c, s₀.cell? a = some c → c.lifetime ≠ k) :
    s₀.Apart ks (s.freeCellsOf k) rs where
  kept := by
    intro b c₀ hc₀ hl
    obtain ⟨c, hc, e⟩ := h.kept b c₀ hc₀ hl
    have hne : c.lifetime ≠ k := e ▸ hk b c₀ hc₀
    exact ⟨c, cell?_freeCellsOf_eq_some.2 ⟨hc, hne⟩, e⟩
  opened := by
    intro b d hd hl
    obtain ⟨hd, hne⟩ := cell?_freeCellsOf_eq_some.1 hd
    exact (h.opened b d hd hl).imp_right fun hm => (List.mem_cons.1 hm).resolve_left hne
  unowned := h.unowned.freeCellsOf k

/-- **Both ways of freeing stay apart**, where blocks carry lifetimes that were not in use. -/
theorem law (s₀ : Store) : Law (fun _ => True)
    (fun k => ∀ a c, s₀.cell? a = some c → c.lifetime ≠ k) s₀.Apart where
  fault _ := trivial
  missing _ _ := trivial
  mono h hr := h.sub (h.unowned.mono hr)
  borrow h _ _ := h.sub (h.unowned.cons nofun)
  read h hc := h.sub (h.unowned.read hc)
  put h hc hv := h.put hc hv
  free h hr ho := h.free hr ho
  box h hv hl := h.allocate hv (.inl hl) true
  declare h hv := h.allocate hv (.inr List.mem_cons_self) false
  enter _ h := ⟨h.kept, fun a c hc hl => (h.opened a c hc hl).imp_right (List.mem_cons_of_mem _),
    h.unowned⟩
  leave hk h := h.leave hk

end Apart

end Store

namespace Machine

variable [HashOrder] {m : Machine} {s s' : State} {k l inner : Lifetime} {sp : Span}
variable {ts : List Term} {v : Value}

/-- **A block by a big step.** Its blocks carry lifetimes that tag no cell. -/
theorem bigValue_balances (hu : ∀ a ∈ s.store.owned, ¬ s.store.Scoped a)
    (hp : (Term.block sp inner ts).Plain)
    (hc : ∀ k ∈ (Term.block sp inner ts).lifetimes, ∀ a c, s.store.cell? a = some c →
      c.lifetime ≠ k)
    (h : m.bigValue s l (.block sp inner ts) = .ok (s', v)) :
    s'.frame = s.frame ∧ ∀ a, s'.store.Scoped a ↔ s.store.Scoped a := by
  -- the lifetime around the block is of no account, so it may be a root
  have hr : m.bigValue s (.root 0) (.block sp inner ts) = .ok (s', v) := by
    rw [bigValue_block] at h ⊢
    exact h
  have start : Held s.store.Apart [.root 0] s ((Term.block sp inner ts).references ++ []) := by
    refine ⟨fun a c hc _ => ⟨c, hc, rfl⟩, fun a c hc hl => .inl ⟨c, hc, hl⟩, ?_, ?_⟩
    · intro a c hc r hr ho
      exact hu _ (Store.mem_owned.2 ⟨a, c, hc, Value.mem_owned.2 ⟨r, hr, ho, rfl⟩⟩)
    · rw [Term.references, hp.references]
      intro r hr ho
      obtain ⟨x, b, -, rfl⟩ := State.exists_of_mem_bound (s := s) (by simpa using hr)
      cases ho
  have done := ((Store.Apart.law s.store).bigValue _ hc start).of_ok hr
  refine ⟨?_, fun a => ⟨?_, ?_⟩⟩
  · rw [bigValue_block, Traced.bind_eq_ok] at h
    obtain ⟨x, -, h⟩ := h
    obtain ⟨st, -, rfl, -⟩ := State.leave_ok.1 h
    rfl
  · rintro ⟨c, hc, hl⟩
    refine (done.opened a c hc hl).resolve_right fun hm => ?_
    rw [List.mem_singleton.1 hm] at hl
    cases hl
  · rintro ⟨c₀, hc₀, hl⟩
    obtain ⟨c, hc, e⟩ := done.kept a c₀ hc₀ hl
    exact ⟨c, hc, e ▸ hl⟩

/-- Without checks both strategies have the result of the big step on a block, whatever the lifetime
around it. -/
theorem evaluate_block (es : List Extension) (strategy : Strategy)
    (hp : (Term.block sp inner ts).Plain)
    (hu : Untagged s.frame k (Term.block sp inner ts).lifetimes)
    (he : Shadowless ⟨strategy, false, es⟩ s l (.block sp inner ts)) :
    (evaluate ⟨strategy, false, es⟩ s l (.block sp inner ts)).result =
      bigValue ⟨strategy, false, es⟩ s l (.block sp inner ts) := by
  refine evaluate_of_run es strategy ?_
  rw [bigValue_block]
  exact evaluates_block (fun t _ => evaluates_bigValue t) (fun t ht => hp.of_block ht) hu.inside
    (fun s₀ us h => he s₀ us (.inside h)) (he s ts .block) hu.popFrame_eq

end Machine

open Machine

/-- **Blocks balance the stack.** No owner points to the cell of a variable, the block holds
integers only, its lifetimes are not roots and tag neither a cell nor a binding, and no block in it
hides a variable. Then if it can be evaluated, with either strategy, the frame is what it was
before, and the cells of variables that are live are those that were live before. -/
theorem block_balances [HashOrder] (es : List Extension) (strategy : Strategy) (s s' : State)
    (l : Lifetime) (sp : Span) (inner : Lifetime) (ts : List Term) (v : Value)
    (hu : ∀ a ∈ s.store.owned, ¬ s.store.Scoped a) (hp : (Term.block sp inner ts).Plain)
    (hn : (Term.block sp inner ts).lifetimes.Nodup)
    (hk : ∀ k ∈ (Term.block sp inner ts).lifetimes, k.isRoot = false ∧
      (∀ a c, s.store.cell? a = some c → c.lifetime ≠ k) ∧
      ∀ x b, s.frame.get? x = some b → b.lifetime ≠ k)
    (he : Shadowless ⟨strategy, false, es⟩ s l (.block sp inner ts))
    (h : (evaluate ⟨strategy, false, es⟩ s l (.block sp inner ts)).result = .ok (s', v)) :
    s'.frame = s.frame ∧ ∀ a, s'.store.Scoped a ↔ s.store.Scoped a := by
  have untagged : Untagged s.frame (.root 0) (Term.block sp inner ts).lifetimes := by
    refine ⟨hn, fun hm => ?_, fun x b hb hm => (hk _ hm).2.2 x b hb rfl⟩
    have := (hk _ hm).1
    cases this
  rw [evaluate_block es strategy hp untagged he] at h
  exact bigValue_balances hu hp (fun k hm => (hk k hm).2.1) h

/-- `x` owns a box of 7. -/
def boxInScope : State where
  frame := .insert .empty "x" ⟨.borrowed 0, .inside 1 (.root 0)⟩
  store := ⟨#[some ⟨.inside 1 (.root 0), .ref (.owned 1)⟩, some ⟨.root 0, .int 7⟩]⟩

/-- `{ let mut y = move x; }` -/
def movedInside : Term :=
  .block {} (.inside 2 (.inside 1 (.root 0))) [.letMut {} "y" {} (.access {} .move (.var "x"))]

/-- `x` is there still, and the box has gone with `y`. -/
def boxGone : State :=
  ⟨boxInScope.frame, ⟨#[some ⟨.inside 1 (.root 0), .undefined⟩, none, none]⟩⟩

theorem shadowless_movedInside [HashOrder] (m : Machine) (l : Lifetime) :
    m.Shadowless boxInScope l movedInside := by
  intro s₀ us h x hx
  cases h with
  | block =>
    rw [List.mem_singleton.1 hx]
    rfl
  | inside h =>
    cases h with
    | head h => cases h with | letMut h => cases h
    | tail _ _ h => cases h

/-- No cell and no binding of `boxInScope` carries the lifetime of the block. -/
theorem unused_movedInside : ∀ k ∈ movedInside.lifetimes, k.isRoot = false ∧
    (∀ a c, boxInScope.store.cell? a = some c → c.lifetime ≠ k) ∧
    ∀ x b, boxInScope.frame.get? x = some b → b.lifetime ≠ k := by
  intro k hk
  cases hk with
  | tail _ hk => cases hk
  | head =>
    refine ⟨rfl, fun a c hc => ?_, fun x b hb => ?_⟩
    · have ha := Store.lt_of_cell? hc
      rcases a with _ | _ | a
      · cases hc
        decide
      · cases hc
        decide
      · exact absurd ha (by simp [boxInScope])
    · rw [boxInScope, NameMap.get?_insert] at hb
      split at hb
      · cases hb
        decide
      · cases hb

theorem block_balances_movedInside :
    (evaluate ⟨.smallStep, false, Extension.all⟩ boxInScope (.inside 1 (.root 0))
      movedInside).result = .ok (boxGone, .unit) ∧
    (∀ a ∈ boxInScope.store.owned, ¬ boxInScope.store.Scoped a) ∧
    movedInside.Plain ∧ movedInside.lifetimes.Nodup ∧
    boxGone.frame = boxInScope.frame ∧
    ∀ a, boxGone.store.Scoped a ↔ boxInScope.store.Scoped a := by
  have run : (evaluate ⟨.smallStep, false, Extension.all⟩ boxInScope (.inside 1 (.root 0))
      movedInside).result = .ok (boxGone, .unit) :=
    ok_of_toOption (by decide +kernel)
  have apart : ∀ a ∈ boxInScope.store.owned, ¬ boxInScope.store.Scoped a := by
    rintro a ha ⟨c, hc, hl⟩
    cases ha with
    | tail _ ha => cases ha
    | head =>
      cases hc
      cases hl
  exact ⟨run, apart, by decide, by decide,
    block_balances Extension.all .smallStep boxInScope boxGone (.inside 1 (.root 0)) {} _ _ .unit
      apart (by decide) (by decide) unused_movedInside (shadowless_movedInside _ _) run⟩

end Ownership
