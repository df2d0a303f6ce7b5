import Ownership.Proofs.Invariants

/-!
# Addresses

The store hands out each address once. A cell that has been freed leaves a hole for good, and a cell
that lives on keeps its lifetime (`Store.Ages`). A reference to an address that was never handed out
can only come from outside: if there is none in a state and a term, no reduction makes one
(`State.InBounds`), and none fails for want of one.

* `reduce_addresses`: **both hold of every reduction**, with either strategy.
-/

namespace Ownership

variable {m : Machine} {l : Lifetime} {a : Nat} {c : Cell} {v : Value} {rs : List Reference}

namespace Store

variable {s s₁ s₂ : Store}

/-- **The store has become the second one**: addresses have been handed out, holes are still there,
and the cells that live on have the lifetimes that they had. -/
structure Ages (s s' : Store) : Prop where
  size : s.size ≤ s'.size
  hole : ∀ a < s.size, s.cell? a = none → s'.cell? a = none
  lifetime : ∀ a c c', s.cell? a = some c → s'.cell? a = some c' → c'.lifetime = c.lifetime

namespace Ages

theorem refl (s : Store) : s.Ages s where
  size := Nat.le_refl _
  hole := fun _ _ h => h
  lifetime := by
    intro a c c' h h'
    rw [h] at h'
    cases h'
    rfl

theorem trans (h : s.Ages s₁) (h' : s₁.Ages s₂) : s.Ages s₂ where
  size := Nat.le_trans h.size h'.size
  hole := fun a ha hc => h'.hole a (Nat.lt_of_lt_of_le ha h.size) (h.hole a ha hc)
  lifetime := by
    intro a c c₂ hc hc₂
    cases hc₁ : s₁.cell? a with
    | none =>
      -- a cell that was freed on the way is not there in the end
      have ha := Nat.lt_of_lt_of_le (lt_of_cell? hc) h.size
      rw [h'.hole a ha hc₁] at hc₂
      cases hc₂
    | some c₁ => rw [h'.lifetime a c₁ c₂ hc₁ hc₂, h.lifetime a c c₁ hc hc₁]

theorem put (h : s.cell? a = some c) (v : Value) : s.Ages (s.put a ⟨c.lifetime, v⟩) where
  size := by simp
  hole := by
    intro b _ hb
    rw [cell?_put h]
    split
    · rename_i e
      rw [e, h] at hb
      cases hb
    · exact hb
  lifetime := by
    intro b d d' hd hd'
    rw [cell?_put h] at hd'
    split at hd'
    · rename_i e
      rw [e, h] at hd
      cases hd
      cases hd'
      rfl
    · rw [hd] at hd'
      cases hd'
      rfl

/-- Cells are freed, and nothing else happens. -/
theorem of_freed (hs : s₁.size = s.size)
    (hc : ∀ a c, s₁.cell? a = some c → s.cell? a = some c) : s.Ages s₁ where
  size := Nat.le_of_eq hs.symm
  hole := by
    intro a _ h
    cases h₁ : s₁.cell? a with
    | none => rfl
    | some c =>
      rw [hc a c h₁] at h
      cases h
  lifetime := by
    intro a c c' h h'
    rw [hc a c' h'] at h
    cases h
    rfl

theorem free (s : Store) (a : Nat) : s.Ages (s.free a) :=
  of_freed (size_free s a) fun _ _ hd => (cell?_free_eq_some.1 hd).2

theorem freeCellsOf (s : Store) (l : Lifetime) : s.Ages (s.freeCellsOf l) :=
  of_freed (size_freeCellsOf s l) fun _ _ hd => (cell?_freeCellsOf_eq_some.1 hd).1

theorem allocate (s : Store) (l : Lifetime) (v : Value) : s.Ages (s.allocate l v).1 := by
  -- the new cell is beyond all that was there
  have old : ∀ b < s.size, (s.allocate l v).1.cell? b = s.cell? b := by
    intro b hb
    have hb : b ≠ s.cells.size := Nat.ne_of_lt hb
    rw [cell?_allocate, if_neg hb]
  refine ⟨by simp, fun b hb h => (old b hb).trans h, fun b d d' h h' => ?_⟩
  rw [old b (lt_of_cell? h), h] at h'
  cases h'
  rfl

/-- Ageing is what all changes of a store have in common. -/
theorem law (s : Store) : Law (fun _ => True) (fun _ => True) fun _ s' _ => s.Ages s' where
  fault _ := trivial
  missing _ _ := trivial
  mono h _ := h
  borrow h _ _ := h
  read h _ := h
  put h hc _ := h.trans (put hc _)
  free h _ _ := h.trans (free _ _)
  box h _ _ := h.trans (allocate _ _ _)
  declare h _ := h.trans (allocate _ _ _)
  enter _ h := h
  leave _ h := h.trans (freeCellsOf _ _)

end Ages

/-! ### Bounds -/

/-- The addresses of all references, in the cells and held, have been handed out. -/
def Bounded (s : Store) (rs : List Reference) : Prop :=
  s.AllReferences (fun r => r.address < s.size) rs

namespace Bounded

/-- What has been handed out may have been freed, so a reference can dangle and no more. -/
theorem missing (h : s.Bounded rs) {r : Reference} (hr : r ∈ rs) :
    s.missing r.address = .danglingReference r.address :=
  if_pos (h.held r hr)

/-- A change that is of no account to the references leaves them in bounds if it keeps the size. -/
theorem of_size (hs : s₁.size = s.size)
    (h : s₁.AllReferences (fun r => r.address < s.size) rs) : s₁.Bounded rs :=
  h.imp fun _ hr => hs ▸ hr

theorem allocate (h : s.Bounded rs) (l : Lifetime) (hv : v.references ⊆ rs) (owner : Bool) :
    (s.allocate l v).1.Bounded (⟨s.cells.size, [], owner⟩ :: rs) := by
  have old : (s.allocate l v).1.Bounded rs :=
    (AllReferences.allocate h l hv).imp fun r hr => by
      rw [size_allocate]
      exact Nat.lt_succ_of_lt hr
  refine old.cons ?_
  rw [size_allocate]
  exact Nat.lt_succ_self _

theorem law : Law (fun e => ∀ a, e ≠ .invalidAddress a) (fun _ => True) fun _ => Bounded where
  fault := by
    rintro e he a rfl
    exact he
  missing h hr := by
    rw [h.missing hr]
    exact fun _ e => nomatch e
  mono h hr := h.mono hr
  borrow {_ _ _ r} h hr _ := h.cons (h.held r hr)
  read h hc := AllReferences.read h hc
  put {_ s _ a _ _} h hc hv := of_size (size_put s a _) (AllReferences.put h hc hv)
  free {_ s _ r} h _ _ := of_size (size_free s r.address) (AllReferences.free h r.address)
  box h hv _ := h.allocate _ hv true
  declare h hv := h.allocate _ hv false
  enter _ h := h
  leave {k _ s _} _ h := of_size (size_freeCellsOf s k) (AllReferences.freeCellsOf h k)

end Bounded

end Store

/-- **Every reference in the frame, in the cells and in the term has an address that was handed
out.** -/
structure State.InBounds (s : State) (t : Term) : Prop where
  frame : ∀ x b, s.frame.get? x = some b → b.location.address < s.store.size
  cells : ∀ a c, s.store.cell? a = some c → ∀ r ∈ c.value.references, r.address < s.store.size
  term : ∀ r ∈ t.references, r.address < s.store.size

theorem State.inBounds_iff {s : State} {t : Term} :
    s.InBounds t ↔ s.store.Bounded (s.bound ++ t.references) := by
  constructor
  · intro h
    refine ⟨h.cells, List.forall_mem_append.2 ⟨fun r hr => ?_, h.term⟩⟩
    obtain ⟨x, b, hb, rfl⟩ := exists_of_mem_bound hr
    exact h.frame x b hb
  · intro h
    obtain ⟨hb, ht⟩ := List.forall_mem_append.1 h.held
    exact ⟨fun x b hx => hb b.location.toBorrow (mem_bound hx), h.cells, ht⟩

/-- **No address is handed out twice, and none is used that was not handed out.** A reduction never
takes an address back, nor gives a cell another lifetime. If all references are in bounds before
a step, they are in bounds after it, and the step does not fail for an address that was never handed
out; so an evaluation without references to begin with never does. -/
theorem reduce_addresses [HashOrder] (m : Machine) (s : State) (l : Lifetime) (t : Term) :
    (∀ s' t', (m.reduce s l t).result = .ok (s', t') → s.store.Ages s'.store) ∧
    (s.InBounds t → (∀ a, (m.reduce s l t).result ≠ .error (.invalidAddress a)) ∧
      ∀ s' t', (m.reduce s l t).result = .ok (s', t') → s'.InBounds t') ∧
    (t.references = [] → ∀ a, (m.evaluate {} l t).result ≠ .error (.invalidAddress a)) := by
  refine ⟨fun s' t' h => ?_, fun hs => ?_, fun ht a h => ?_⟩
  · have aged : Held (fun _ s' _ => s.store.Ages s') [] s (t.references ++ []) := .refl s.store
    exact ((Store.Ages.law s.store).reduce aged).of_ok h
  · have bounded : Held (fun _ => Store.Bounded) [] s (t.references ++ []) := by
      rw [List.append_nil]
      exact State.inBounds_iff.1 hs
    have step := Store.Bounded.law.reduce (m := m) (l := l) bounded
    refine ⟨fun a h => step.of_error h a rfl, fun s' t' h => State.inBounds_iff.2 ?_⟩
    have after := step.of_ok h
    rw [List.append_nil] at after
    exact after
  · have bounded : Held (fun _ => Store.Bounded) [] {} (t.references ++ []) := by
      rw [ht]
      refine ⟨fun a c hc => ?_, fun r hr => ?_⟩
      · cases hc
      · cases hr
    exact (Store.Bounded.law.evaluateFrom (Nat.le_refl _) bounded).of_error h a rfl

/-- `x` is 7, in the block of lifetime 1, and the cell after it has been freed. -/
def freedBehind : State where
  frame := .insert .empty "x" ⟨.borrowed 0, .inside 1 (.root 0)⟩
  store := ⟨#[some ⟨.inside 1 (.root 0), .int 7⟩, none]⟩

/-- The same with a box of 7 behind the hole. -/
def boxedBehind : State :=
  ⟨freedBehind.frame, (freedBehind.store.allocate (.root 0) (.int 7)).1⟩

/-- `box (copy x)` -/
def boxedCopy : Term := .box {} (.access {} .copy (.var "x"))

theorem inBounds_freedBehind : freedBehind.InBounds boxedCopy where
  frame := by
    intro x b hb
    rw [freedBehind, NameMap.get?_insert] at hb
    split at hb
    · cases hb
      decide
    · cases hb
  cells := by
    intro a c hc r hr
    have ha := Store.lt_of_cell? hc
    rcases a with _ | _ | a
    · cases hc
      cases hr
    · cases hc
    · exact absurd ha (by simp [freedBehind])
  term := nofun

theorem reduce_addresses_freedBehind :
    freedBehind.InBounds boxedCopy ∧ boxedCopy.references = [] ∧
    (Machine.reduce ⟨.bigStep, true, Extension.all⟩ freedBehind (.inside 1 (.root 0))
      boxedCopy).result = .ok (boxedBehind, .ofValue (.ref (.owned 2))) ∧
    freedBehind.store.Ages boxedBehind.store ∧
    boxedBehind.InBounds (.ofValue (.ref (.owned 2))) ∧
    ∀ a, (Machine.evaluate ⟨.bigStep, true, Extension.all⟩ {} (.inside 1 (.root 0))
      boxedCopy).result ≠ .error (.invalidAddress a) := by
  have run : (Machine.reduce ⟨.bigStep, true, Extension.all⟩ freedBehind (.inside 1 (.root 0))
      boxedCopy).result = .ok (boxedBehind, .ofValue (.ref (.owned 2))) := rfl
  obtain ⟨aged, bounded, closed⟩ := reduce_addresses ⟨.bigStep, true, Extension.all⟩ freedBehind
    (.inside 1 (.root 0)) boxedCopy
  exact ⟨inBounds_freedBehind, rfl, run, aged _ _ run, (bounded inBounds_freedBehind).2 _ _ run,
    closed rfl⟩

end Ownership
