import Mathlib.Data.List.Flatten
import Ownership.Proofs.Soundness.World

/-!
# Safe worlds

A world is safe, together with the contents that are held outside of it, if every
borrow leads to where its target is stored, borrows do not interfere, and no variable
borrows from one that does not live as long (`World.Safe`). Each rule of the machine is a
change of a safe world to another one.

* `Safe.put`: a value that no borrow leads below is exchanged for another one.
* `Safe.age`: a unique borrow moves on and leaves a stale copy behind.
* `Safe.copy`, `Safe.lend`: a shared borrow is copied, a new borrow is taken.
* `Safe.bind`, `Safe.leave`: a variable is declared, the variables of a block are forgotten.
-/

namespace Ownership

namespace World

variable {W W' : World} {cs ds : List Content} {c d old new : Content} {o o' : Loan}
variable {p q t : Place} {loc : Reference} {ok : Place → Prop} {l inner : Lifetime} {x : String}

/-- **The borrows in the world and in the contents `cs` outside of it are sound.** -/
structure Safe (W : World) (cs : List Content) : Prop where
  names : (W.map Root.name).Nodup
  loans : ∀ o ∈ W.loans cs, ∃ t, W.Resolves (fun _ => True) o.target t o.location
  apart : (W.loans cs).Pairwise Loan.Apart
  outlives : ∀ r ∈ W, ∀ o ∈ r.content.loans, ∀ r' ∈ W, r'.name = o.target.name →
    r.level.within r'.level = true

theorem Resolves.root (h : W.Resolves ok p q loc) : ∃ r ∈ W, r.name = p.name := by
  cases h with
  | here _ ha =>
    obtain ⟨r, hr, e, -⟩ := ha
    exact ⟨r, hr, e⟩
  | through _ ha =>
    obtain ⟨r, hr, e, -⟩ := ha
    exact ⟨r, hr, e⟩

/-- Where a place leads something is stored. -/
theorem Resolves.at (h : W.Resolves ok p q loc) : ∃ d, W.At q d loc := by
  induction h with
  | here _ ha => exact ⟨_, ha⟩
  | through _ _ _ _ _ _ ih => exact ih

/-- A part of the world is one of the parts of a variable. -/
theorem At.outlives (h : W.Safe cs) (ha : W.At q c loc) (ho : o ∈ c.loans) :
    ∀ r ∈ W, ∀ r' ∈ W, r.name = q.name → r'.name = o.target.name →
      r.level.within r'.level = true := by
  intro r hr r' hr' e e'
  obtain ⟨r₀, hr₀, e₀, hw⟩ := ha
  have := root_unique h.names hr hr₀ (e.trans e₀.symm)
  subst this
  exact h.outlives r hr o (Content.mem_loans_of_walk hw ho) r' hr' e'

namespace Safe

/-- What is asked of the contents is asked of their borrows. -/
theorem congr (h : W.Safe cs) (hp : (ds.flatMap Content.loans).Perm (cs.flatMap Content.loans)) :
    W.Safe ds := by
  have hl : (W.loans ds).Perm (W.loans cs) := hp.append_left _
  refine ⟨h.names, fun o ho => h.loans o (hl.mem_iff.1 ho), ?_, h.outlives⟩
  exact (hl.pairwise_iff fun {_ _} hab => hab.symm).2 h.apart

/-- Contents may be given up. -/
theorem drop (h : W.Safe (cs ++ ds)) : W.Safe ds := by
  have hl : (W.loans ds).Sublist (W.loans (cs ++ ds)) := by
    rw [World.loans, World.loans, List.flatMap_append]
    exact (List.sublist_append_right _ _).append_left _
  exact ⟨h.names, fun o ho => h.loans o (hl.mem ho), h.apart.sublist hl, h.outlives⟩

theorem mem_put {r : Root} (hr : r ∈ W.put q d) : ∃ r₀ ∈ W, r.name = r₀.name ∧ r.level = r₀.level ∧
    ((r₀.name = q.name ∧ r.content = r₀.content.put q.path d) ∨
      (r₀.name ≠ q.name ∧ r.content = r₀.content)) := by
  obtain ⟨r₀, hr₀, e⟩ := List.mem_map.1 hr
  refine ⟨r₀, hr₀, ?_⟩
  by_cases hq : r₀.name = q.name
  · rw [if_pos hq] at e
    subst e
    exact ⟨rfl, rfl, .inl ⟨hq, rfl⟩⟩
  · rw [if_neg hq] at e
    subst e
    exact ⟨rfl, rfl, .inr ⟨hq, rfl⟩⟩

/-- **Another value at a place that no borrow leads below**, where what it borrows lives long
enough. -/
theorem put (h : W.Safe (new :: cs)) (hq : W.At q old loc) (hc : W.Clear (new :: cs) q)
    (hl : ∀ o ∈ new.loans, ∀ r ∈ W, ∀ r' ∈ W, r.name = q.name → r'.name = o.target.name →
      r.level.within r'.level = true) : (W.put q new).Safe (old :: cs) := by
  have hp : ((W.put q new).loans (old :: cs)).Perm (W.loans (new :: cs)) :=
    loans_put h.names hq new
  refine ⟨?_, fun o ho => ?_, ?_, ?_⟩
  · rw [put_names]
    exact h.names
  · obtain ⟨t, ht⟩ := hc o (hp.mem_iff.1 ho)
    exact ⟨t, ht.put h.names hq new⟩
  · exact (hp.pairwise_iff fun {_ _} hab => hab.symm).2 h.apart
  · -- only what has been put in borrows anew
    intro r hr o ho r' hr' e'
    obtain ⟨r₀, hr₀, en, el, hcase⟩ := mem_put hr
    obtain ⟨r₀', hr₀', en', el', -⟩ := mem_put hr'
    rw [el, el']
    have e₀ : r₀'.name = o.target.name := en'.symm.trans e'
    rcases hcase with ⟨hname, hcont⟩ | ⟨-, hcont⟩
    · rw [hcont] at ho
      obtain ⟨r₁, hr₁, e₁, hw⟩ := hq
      have := root_unique h.names hr₀ hr₁ (hname.trans e₁.symm)
      subst this
      have hm := (Content.loans_put hw new).mem_iff (a := o)
      rw [List.mem_append, List.mem_append] at hm
      rcases hm.1 (.inl ho) with ho | ho
      · exact h.outlives r₀ hr₀ o ho r₀' hr₀' e₀
      · exact hl o ho r₀ hr₀ r₀' hr₀' hname e₀
    · rw [hcont] at ho
      exact h.outlives r₀ hr₀ o ho r₀' hr₀' e₀

/-- A stale copy of what is stored somewhere does no harm. -/
theorem stale (h : W.Safe cs) (hq : W.At q c loc) : W.Safe (c.age :: cs) := by
  have hl : (W.loans (c.age :: cs)).Perm (c.age.loans ++ W.loans cs) := by
    refine List.perm_iff_count.2 fun o => ?_
    simp only [World.loans, List.flatMap_cons, List.count_append]
    omega
  -- the borrows of the copy are those of the world, made stale
  have aged : ∀ o ∈ c.age.loans, ∃ o₀ ∈ W.loans cs, o = { o₀ with stale := true } := by
    intro o ho
    rw [Content.loans_age] at ho
    obtain ⟨o₀, ho₀, rfl⟩ := List.mem_map.1 ho
    exact ⟨o₀, hq.mem_loans ho₀, rfl⟩
  refine ⟨h.names, fun o ho => ?_, ?_, h.outlives⟩
  · rcases List.mem_append.1 (hl.mem_iff.1 ho) with ho | ho
    · obtain ⟨o₀, ho₀, rfl⟩ := aged o ho
      exact h.loans o₀ ho₀
    · exact h.loans o ho
  · refine (hl.pairwise_iff fun {_ _} hab => hab.symm).2 (List.pairwise_append.2 ⟨?_, h.apart, ?_⟩)
    · refine List.Pairwise.imp_of_mem (R := fun _ _ => True) ?_ (List.pairwise_of_forall (by simp))
      intro o o' ho ho' _
      obtain ⟨_, -, rfl⟩ := aged o ho
      obtain ⟨_, -, rfl⟩ := aged o' ho'
      exact ⟨by simp, by simp⟩
    · -- a live unique borrow of the world is the one that was copied, or apart from it
      intro o ho o' ho'
      obtain ⟨o₀, ho₀, rfl⟩ := aged o ho
      refine ⟨by simp, fun hs hm hc => ⟨rfl, ?_⟩⟩
      rcases pairwise_mem (fun h => h.symm) h.apart ho' ho₀ with e | hap
      · rw [e]
      · exact (hap.left hs hm hc).2

/-- **A value that owns nothing is moved on** and leaves a stale copy behind. -/
theorem age (h : W.Safe cs) (hq : W.At q c loc) (hc : W.Clear cs q) :
    (W.put q c.age).Safe (c :: cs) := by
  refine (h.stale hq).put hq (fun o ho => ?_) fun o ho r hr r' hr' e e' => ?_
  · rw [World.loans, List.flatMap_cons] at ho
    simp only [List.mem_append] at ho
    rcases ho with ho | ho | ho
    · exact hc o (List.mem_append_left _ ho)
    · rw [Content.loans_age] at ho
      obtain ⟨o₀, ho₀, rfl⟩ := List.mem_map.1 ho
      exact hc o₀ (hq.mem_loans ho₀)
    · exact hc o (List.mem_append_right _ ho)
  · rw [Content.loans_age] at ho
    obtain ⟨o₀, ho₀, rfl⟩ := List.mem_map.1 ho
    exact hq.outlives h ho₀ r hr r' hr' e e'

/-- Shared borrows may be copied. -/
theorem copy (h : W.Safe cs) (hd : ∀ o ∈ d.loans, o ∈ W.loans cs ∧ o.mutable = false) :
    W.Safe (d :: cs) := by
  have hl : (W.loans (d :: cs)).Perm (d.loans ++ W.loans cs) := by
    refine List.perm_iff_count.2 fun o => ?_
    simp only [World.loans, List.flatMap_cons, List.count_append]
    omega
  refine ⟨h.names, fun o ho => ?_, ?_, h.outlives⟩
  · rcases List.mem_append.1 (hl.mem_iff.1 ho) with ho | ho
    · exact h.loans o (hd o ho).1
    · exact h.loans o ho
  · -- a copied borrow is not unique, so only one of the world can be
    have shared : ∀ {o : Loan}, o.mutable = false → o.mutable = true → False := fun h h' => by
      rw [h] at h'
      cases h'
    refine (hl.pairwise_iff fun {_ _} hab => hab.symm).2 (List.pairwise_append.2 ⟨?_, h.apart, ?_⟩)
    · refine List.Pairwise.imp_of_mem (R := fun _ _ => True) ?_ (List.pairwise_of_forall (by simp))
      intro o o' ho ho' _
      exact ⟨fun _ hm => (shared (hd o ho).2 hm).elim, fun _ hm => (shared (hd o' ho').2 hm).elim⟩
    · intro o ho o' ho'
      obtain ⟨hm, hi⟩ := hd o ho
      refine ⟨fun _ hm => (shared hi hm).elim, fun hs hm' hc => ?_⟩
      rcases pairwise_mem (fun h => h.symm) h.apart ho' hm with e | hap
      · rw [e] at hm'
        exact (shared hi hm').elim
      · exact hap.left hs hm' hc

/-- A new borrow: no unique borrow may be of a conflicting place, and no borrow at all if the new
one is unique. -/
theorem lend (h : W.Safe cs) (ho : W.Resolves (fun _ => True) o.target t o.location)
    (hr : ∀ o' ∈ W.loans cs, o'.mutable = true → o'.target.conflicts o.target = false)
    (hw : o.mutable = true → ∀ o' ∈ W.loans cs, o'.target.conflicts o.target = false) :
    W.Safe (.loan o :: cs) := by
  have hl : (W.loans (.loan o :: cs)).Perm (o :: W.loans cs) := by
    refine List.perm_iff_count.2 fun o' => ?_
    simp only [World.loans, List.flatMap_cons, Content.loans, List.count_append, List.count_cons,
      List.count_nil]
    omega
  refine ⟨h.names, fun o' ho' => ?_, ?_, h.outlives⟩
  · rcases List.mem_cons.1 (hl.mem_iff.1 ho') with rfl | ho'
    · exact ⟨t, ho⟩
    · exact h.loans o' ho'
  · refine (hl.pairwise_iff fun {_ _} hab => hab.symm).2
      (List.pairwise_cons.2 ⟨fun o' ho' => ⟨fun _ hm hc => ?_, fun _ hm hc => ?_⟩, h.apart⟩)
    · rw [Place.conflicts_comm, hw hm o' ho'] at hc
      cases hc
    · rw [hr o' ho' hm] at hc
      cases hc

/-- A variable is declared. -/
theorem bind (h : W.Safe (d :: cs)) (hx : ∀ r ∈ W, r.name ≠ x)
    (hl : ∀ r ∈ W, l.within r.level = true) (a : Nat) : Safe (⟨x, d, l, a⟩ :: W) cs := by
  have hp : (World.loans (⟨x, d, l, a⟩ :: W) cs).Perm (W.loans (d :: cs)) := by
    refine List.perm_iff_count.2 fun o => ?_
    simp only [World.loans, List.flatMap_cons, List.count_append]
    omega
  refine ⟨?_, fun o ho => ?_, ?_, ?_⟩
  · refine List.nodup_cons.2 ⟨fun hm => ?_, h.names⟩
    obtain ⟨r, hr, e⟩ := List.mem_map.1 hm
    exact hx r hr e
  · obtain ⟨t, ht⟩ := h.loans o (hp.mem_iff.1 ho)
    refine ⟨t, ht.map (fun _ _ => trivial) ?_⟩
    rintro x π rest e loc - ⟨r, hr, en, hw⟩
    exact ⟨e, ⟨r, List.mem_cons_of_mem _ hr, en, hw⟩, fun _ _ e => e⟩
  · exact (hp.pairwise_iff fun {_ _} hab => hab.symm).2 h.apart
  · intro r hr o ho r' hr' e
    have hmem : o ∈ W.loans (d :: cs) := by
      rcases List.mem_cons.1 hr with rfl | hr
      · exact List.mem_append_right _ (List.mem_append_left _ ho)
      · exact List.mem_append_left _ (List.mem_flatMap.2 ⟨r, hr, ho⟩)
    -- the target is one of the variables that were there before
    obtain ⟨t, ht⟩ := h.loans o hmem
    obtain ⟨r₀, hr₀, e₀⟩ := ht.root
    have hr' : r' ∈ W := by
      rcases List.mem_cons.1 hr' with rfl | hr'
      · exact absurd (e₀.trans e.symm) (hx r₀ hr₀)
      · exact hr'
    rcases List.mem_cons.1 hr with rfl | hr
    · exact hl r' hr'
    · exact h.outlives r hr o ho r' hr' e

/-- The variables of a block are forgotten, if no other variable can borrow from them and nothing
that is held outside does. -/
theorem leave (h : W.Safe cs)
    (hl : ∀ r ∈ W, ∀ r' ∈ W, r.level ≠ inner → r.level.within r'.level = true → r'.level ≠ inner)
    (hc : ∀ o ∈ cs.flatMap Content.loans, ∀ r ∈ W, r.name = o.target.name → r.level ≠ inner) :
    Safe (W.filter fun r => r.level != inner) cs := by
  have hmem : ∀ {r}, r ∈ W.filter (fun r => r.level != inner) ↔ r ∈ W ∧ r.level ≠ inner := by
    simp
  have hs : (World.loans (W.filter fun r => r.level != inner) cs).Sublist (W.loans cs) :=
    (List.filter_sublist.flatMap _).append_right _
  -- a way from a variable that stays only meets variables that stay
  have stays : ∀ {p t loc}, W.Resolves (fun _ => True) p t loc →
      (∀ r ∈ W, r.name = p.name → r.level ≠ inner) →
      Resolves (W.filter fun r => r.level != inner) (fun _ => True) p t loc := by
    intro p t loc ht
    induction ht with
    | here _ ha =>
      intro hp
      obtain ⟨r, hr, e, hw⟩ := ha
      exact .here trivial ⟨r, hmem.2 ⟨hr, hp r hr e⟩, e, hw⟩
    | @through x π rest o loc qloc t q _ ha hst _ _ iht ih =>
      intro hp
      obtain ⟨r, hr, e, hw⟩ := ha
      have htarget : ∀ r' ∈ W, r'.name = o.target.name → r'.level ≠ inner := fun r' hr' e' =>
        hl r hr r' hr' (hp r hr e)
          (h.outlives r hr o (Content.mem_loans_of_walk hw (by simp [Content.loans])) r' hr' e')
      exact .through trivial ⟨r, hmem.2 ⟨hr, hp r hr e⟩, e, hw⟩ hst (iht htarget) (ih htarget)
  refine ⟨h.names.sublist (List.filter_sublist.map _), fun o ho => ?_, h.apart.sublist hs, ?_⟩
  · obtain ⟨t, ht⟩ := h.loans o (hs.mem ho)
    refine ⟨t, stays ht fun r' hr' e' => ?_⟩
    rcases List.mem_append.1 ho with ho | ho
    · obtain ⟨r, hr, ho⟩ := List.mem_flatMap.1 ho
      obtain ⟨hr, hlev⟩ := hmem.1 hr
      exact hl r hr r' hr' hlev (h.outlives r hr o ho r' hr' e')
    · exact hc o ho r' hr' e'
  · intro r hr o ho r' hr' e
    exact h.outlives r (hmem.1 hr).1 o ho r' (hmem.1 hr').1 e

end Safe

end World

end Ownership
