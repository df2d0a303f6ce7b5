import Ownership.Proofs.Soundness.Careful
import Ownership.Proofs.Soundness.Coherent
import Ownership.Proofs.Soundness.Runs
import Ownership.Proofs.Soundness.Typed

/-!
# Preservation

A careful term that the checker accepts runs with both strategies, from every state of
a world that its environment types, to a state of a world that the environment after it
types. There is one lemma for each term former, and `preserves` puts them together by
induction on the term.

* `Landing`: where a run ends. The contents `K` are those of operands before the term.
* `preserves`: **what the checker accepts runs without a fault.**
-/

namespace Ownership

variable {m : Machine} {c : Checker} {whole : Bool} {Γ Γ' : Env} {l inner : Lifetime}
variable {t : Term} {ts : List Term} {T U : Ty} {s s' : State} {W W' : World}
variable {K L : List (String × Content)} {cs : List Content} {sp xs : Span} {x : String}
variable {p q : Place} {o : Nat} {old d : Content} {loc : Reference}

theorem copies_ok {k : AccessKind} {b : Bool} (h : c.copies k p T = .ok b) :
    (b = true → T.copyable = true ∧ k ≠ .move) ∧ (b = false → k ≠ .copy) := by
  cases k with
  | copy =>
    simp only [Checker.copies] at h
    split at h
    · rename_i ht
      cases h
      exact ⟨fun _ => ⟨ht, nofun⟩, nofun⟩
    · cases h
  | move =>
    cases h
    exact ⟨nofun, fun _ => nofun⟩
  | inferred =>
    cases h
    refine ⟨fun h => ?_, fun _ => nofun⟩
    rw [Bool.and_eq_true] at h
    exact ⟨h.2, nofun⟩

/-- A way across unique borrows is a way. -/
theorem World.Crosses.resolves (hs : W.Safe cs) (hc : W.Crosses p q) (ha : W.At q old loc) :
    W.Resolves (fun _ => True) p q loc := by
  induction hc with
  | here => exact .here trivial ha
  | @through _ _ _ o _ _ hl hst _ _ ih =>
    -- the borrow itself leads to where its target is
    obtain ⟨t, ht⟩ := hs.loans o (hl.mem_loans (by simp [Content.loans]))
    exact .through trivial hl hst ht (ih ha)

variable [HashOrder]

/-- **Where the run of a term ends**: in a state of a world that `Γ'` types, with a content that
refines `T`. No binding of the frame is lost. -/
structure Landing (m : Machine) (whole : Bool) (l : Lifetime) (K : List (String × Content))
    (s : State) (t : Term) (Γ' : Env) (T : Ty) (s' : State) (W' : World) (d : Content) : Prop where
  runs : m.Runs l ((K.map Prod.snd).map Content.value) s t s' d.value
  coherent : Coherent s' l W' (d :: K.map Prod.snd)
  straight : whole = false → W'.Straight (d :: K.map Prod.snd)
  typed : Typed Γ' W' K
  refines : Refines false T d
  defined : T.defined = true
  frame : ∀ x b, s.frame.get? x = some b → s'.frame.get? x = some b

/-- The machine does what the checker says of the term, while the contents `K` are held by operands
before it. -/
def Preserves (m : Machine) (c : Checker) (whole : Bool) (t : Term) : Prop :=
  ∀ {Γ l Γ' T s W K}, Fit c whole Γ l t → Typed Γ W K → Coherent s l W (K.map Prod.snd) →
    (whole = false → W.Straight (K.map Prod.snd)) → (c.apply Γ l t).result = .ok (Γ', T) →
    ∃ s' W' d, Landing m whole l K s t Γ' T s' W' d

/-! ### Places -/

theorem preserves_access {k : AccessKind} : Preserves m c whole (.access sp k p) := by
  intro Γ l Γ' T s W K hfit ht hc hst h
  have hp : ∀ i, p.name ≠ Env.temporary i := hfit.named p.name (by simp [Term.names])
  obtain ⟨sl, hs, hav, hty, ⟨hk, rfl⟩ | ⟨hk, hw, u, hf, rfl⟩⟩ :=
    Checker.read_ok (Checker.apply_access h)
  · -- a copy is made of shared borrows and of what owns nothing
    obtain ⟨hcopy, hmove⟩ := (copies_ok hk).1 rfl
    obtain ⟨q, d, loc, hq, ha, hd⟩ := ht.resolves hc.safe hty hp
    obtain ⟨hcells, hgone, hshared⟩ := hd.of_copyable hcopy
    have howner := Content.containsOwner_of_cells (hcells l.global)
    have hstay : k.moves d.value = false := by
      cases k with
      | copy => rfl
      | move => exact absurd rfl hmove
      | inferred => exact howner
    have hc' : Coherent s l W (d :: K.map Prod.snd) := by
      refine ⟨hc.safe.copy fun o ho => ⟨ha.mem_loans ho, (hshared o ho).1⟩, ?_, hc.frame, hc.level⟩
      rw [World.cells, List.flatMap_cons, hcells]
      exact hc.holds
    refine ⟨s, W, d, .access (hc.access_stay hq ha hgone hstay) hc'.sound, hc', fun hw => ?_, ht,
      hd, Ty.defined_of_copyable hcopy, fun _ _ h => h⟩
    exact (hst hw).add fun o ho => (hst hw).targets o (ha.mem_loans ho)
  · -- a move strikes the place out
    have hkind := (copies_ok hk).2 rfl
    obtain ⟨d, loc, ha, hd⟩ := ht.at_reached hs hp hf
    have hu : T = u := typeOf_reached hs hf hty
    subst hu
    have hwhole : T.defined = true := by
      rcases availability_false hs hav with ⟨u, hf', hu⟩ | ⟨_, _, _, hf'⟩
      · rw [hf] at hf'
        cases hf'
        exact hu
      · rw [hf] at hf'
        cases hf'
    have hgone : d ≠ .gone := hd.ne_gone hwhole
    have hclear : W.Clear (K.map Prod.snd) p := World.clear_of_conflicts
      (fun o ho => (Place.conflicts_comm p o.target).trans (ht.conflicts hw o ho)) hc.safe.loans
    cases hm : k.moves d.value with
    -- owners and their boxes go
    | true =>
      obtain ⟨s', hr, hc', hframe⟩ := hc.access_move ha hgone hm hclear
      exact ⟨s', _, d, .access hr hc'.sound, hc', fun hw => (hst hw).strike hc.safe.names ha,
        ht.put hs hp hf .gone, hd, hwhole, fun _ _ h => hframe ▸ h⟩
    | false =>
      -- what owns nothing is left behind as a stale copy
      have howner : d.value.containsOwner = false := by
        cases k with
        | copy => exact absurd rfl hkind
        | move => cases hm
        | inferred => exact hm
      have hc' := hc.age ha howner hclear
      have hq : W.Resolves (fun _ => True) p p loc := .here trivial ha
      exact ⟨s, _, d, .access (hc.access_stay hq ha hgone hm) hc'.sound, hc',
        fun hw => (hst hw).age hc.safe.names ha, ht.put hs hp hf (.shadow hd.age), hd, hwhole,
        fun _ _ h => h⟩

theorem preserves_borrow {b : Bool} : Preserves m c whole (.borrow sp b p) := by
  intro Γ l Γ' T s W K hfit ht hc hst h
  have hp : ∀ i, p.name ≠ Env.temporary i := hfit.named p.name (by simp [Term.names])
  obtain ⟨rfl, hb⟩ := Checker.apply_borrow h
  obtain ⟨sl, hs, hav, hw, hr, rfl⟩ := Checker.borrow_ok hb
  -- the place leads somewhere, behind a borrow of a place by the way of that borrow
  have hres : ∃ q loc, W.Resolves (fun _ => True) p q loc := by
    rcases availability_false hs hav with ⟨u, hf, -⟩ | ⟨n, ps, rest, hf⟩
    · obtain ⟨d, loc, ha, -⟩ := ht.at_reached hs hp hf
      exact ⟨p, loc, .here trivial ha⟩
    · obtain ⟨π, o, loc, e, ha, hst, -, -⟩ := ht.at_crossed hs hp hf
      cases rest with
      | nil =>
        obtain ⟨t, hto⟩ := hc.safe.loans o (ha.mem_loans (by simp [Content.loans]))
        rw [e]
        refine ⟨t, o.location, .through trivial ha hst hto ?_⟩
        simpa [Place.extend] using hto
      | cons a rest =>
        obtain ⟨T, hT⟩ := hfit.borrow hs hf (List.cons_ne_nil a rest)
        obtain ⟨q, d, loc, hq, -⟩ := ht.resolves hc.safe hT hp
        exact ⟨q, loc, hq⟩
  obtain ⟨q, loc, hq⟩ := hres
  -- no borrow is in the way of the new one
  have hsafe : W.Safe (.loan ⟨false, b, p, loc⟩ :: K.map Prod.snd) := by
    refine hc.safe.lend hq (fun o ho hm => ?_) fun hm o ho => ?_
    · cases b with
      | true => exact ht.conflicts (hw rfl) o ho
      | false => exact ht.lendable (hr rfl) o ho hm
    · exact ht.conflicts (hw hm) o ho
  have hc' : Coherent s l W (.loan ⟨false, b, p, loc⟩ :: K.map Prod.snd) :=
    ⟨hsafe, hc.holds, hc.frame, hc.level⟩
  have hd : Refines false (.borrowOf b p) (.loan ⟨false, b, p, loc⟩) :=
    .borrow (o := ⟨false, b, p, loc⟩) (PlaceSet.mem_singleton.2 rfl) fun _ => rfl
  refine ⟨s, W, .loan ⟨false, b, p, loc⟩, .borrow (hc.borrow_ok hq) hc'.sound, hc', fun hw => ?_,
    ht, hd, rfl, fun _ _ h => h⟩
  refine (hst hw).add fun o ho => ?_
  rw [Content.loans, List.mem_singleton] at ho
  subst ho
  exact hfit.straight hw

theorem preserves_value {v : Value} : Preserves m c whole (.value sp v) := by
  intro Γ l Γ' T s W K hfit ht hc hst h
  obtain ⟨⟨n, rfl⟩, rfl, rfl⟩ := Checker.apply_value h
  have hc' : Coherent s l W (.int n :: K.map Prod.snd) := hc.congr .rfl .rfl
  exact ⟨s, W, .int n, .value, hc', fun hw => (hst hw).add nofun, ht, .int, rfl, fun _ _ h => h⟩

/-! ### Terms with one part -/

theorem preserves_box (ih : Preserves m c whole t) : Preserves m c whole (.box sp t) := by
  intro Γ l Γ' T s W K hfit ht hc hst h
  obtain ⟨U, h₁, rfl⟩ := Checker.apply_box h
  obtain ⟨s₁, W₁, d, hd⟩ := ih hfit.box ht hc hst h₁
  obtain ⟨s₂, a, hr, hc₂, e⟩ := hd.coherent.box_ok
  refine ⟨s₂, W₁, .box a d, hd.runs.box hr hc₂.sound, hc₂, fun hw => ?_, hd.typed, .box hd.refines,
    hd.defined, fun x b h => e ▸ hd.frame x b h⟩
  exact (hd.straight hw).sub (by simp)

theorem preserves_letMut (ih : Preserves m c whole t) :
    Preserves m c whole (.letMut sp x xs t) := by
  intro Γ l Γ' T s W K hfit ht hc hst h
  obtain ⟨hfit', hl, hdecl⟩ := hfit.letMut
  obtain ⟨hnew, Γ₁, U, h₁, rfl, rfl⟩ := Checker.apply_letMut h
  obtain ⟨s₁, W₁, d, hd⟩ := ih hfit' ht hc hst h₁
  have hxn : ∀ i, x ≠ Env.temporary i := hfit.named x List.mem_cons_self
  -- the variable is not there before the initialiser, which does not declare it
  have hname : ∀ r ∈ W₁, r.name ≠ x := by
    rintro r hr rfl
    have hb := (hd.coherent.frame r.name _).2 ⟨r, hr, rfl, rfl⟩
    rcases Machine.bigValue_frame t hd.runs.big r.name with e | ⟨hm, -⟩
    · rw [hb] at e
      obtain ⟨r₀, hr₀, e₀, -⟩ := (hc.frame _ _).1 e.symm
      obtain ⟨sl, hs, -⟩ := ht.root r₀ hr₀
      rw [e₀, NameMap.contains_eq_false_iff.1 hnew] at hs
      cases hs
    · exact hdecl hm
  -- so the environment does not know it either
  have hx : Γ₁.get? x = none := by
    cases hs : Γ₁.get? x with
    | none => rfl
    | some sl =>
      obtain ⟨r, hr, e, -⟩ := hd.typed.exists_root hs hxn
      exact absurd e (hname r hr)
  obtain ⟨s₂, a, hr, hc₂, e, hnone⟩ := hd.coherent.bind_ok hname hl
  have hc₃ : Coherent s₂ l (⟨x, d, l, a⟩ :: W₁) (.unit :: K.map Prod.snd) := hc₂.congr .rfl .rfl
  refine ⟨s₂, _, .unit, hd.runs.letMut hr hc₃.sound, hc₃, fun hw => ?_,
    hd.typed.bind hx hxn hd.refines a, .unit, rfl, fun y b hy => ?_⟩
  · exact ((hd.straight hw).bind hd.coherent.safe hname a).add nofun
  · rw [e, NameMap.get?_insert, if_neg, hd.frame y b hy]
    rintro rfl
    rw [hd.frame y b hy] at hnone
    cases hnone

theorem preserves_assign (ih : Preserves m c whole t) : Preserves m c whole (.assign sp p t) := by
  intro Γ l Γ' T s W K hfit ht hc hst h
  have hp : ∀ i, p.name ≠ Env.temporary i := hfit.named p.name List.mem_cons_self
  obtain ⟨hfit', hps, hspread⟩ := hfit.assign
  obtain ⟨-, Γ₁, U, -, h₁, ha, rfl⟩ := Checker.apply_assign h
  obtain ⟨s₁, W₁, d, hd⟩ := ih hfit' ht hc hst h₁
  have hsafe := hd.coherent.safe
  obtain ⟨hw, hwd, hwrite⟩ := Checker.assign_ok ha
  obtain ⟨q, old, loc, hq, hqa, hlive, hput⟩ :=
    hd.typed.spread hsafe hd.straight hd.defined (hspread h₁ rfl hwrite) hp
  -- nothing borrows from the place, not even the value that is assigned
  have hconf : ∀ o ∈ W₁.loans (d :: K.map Prod.snd), o.target.conflicts p = false := by
    intro o ho
    rw [World.loans, List.flatMap_cons] at ho
    simp only [List.mem_append] at ho
    rcases ho with ho | ho | ho
    · exact hd.typed.conflicts hw o (List.mem_append_left _ ho)
    · obtain ⟨b, hb, -, hm⟩ := hd.refines.mem_borrows ho
      exact not_prohibitsWriting hwd b hb o.target hm
    · exact hd.typed.conflicts hw o (List.mem_append_right _ ho)
  have hclear : W₁.Clear (d :: K.map Prod.snd) p := World.clear_of_conflicts
    (fun o ho => (Place.conflicts_comm p o.target).trans (hconf o ho)) hsafe.loans
  obtain ⟨s₂, hr, hc₂, e⟩ := hd.coherent.assign_ok (hq.resolves hsafe hqa) hqa
    (hq.clear hsafe.names hsafe.apart hclear) (hlive d hd.refines)
  have hc₃ : Coherent s₂ l (W₁.put q d) (.unit :: K.map Prod.snd) := hc₂.congr .rfl .rfl
  refine ⟨s₂, _, .unit, hd.runs.assign hr hc₃.sound, hc₃, fun hw => ?_, hput d hd.refines, .unit,
    rfl, fun x b h => e ▸ hd.frame x b h⟩
  -- and in a straight world not from its variable either
  have hst₁ := (hd.straight hw).assign hsafe hq hqa fun o ho en => by
    have := Place.conflicts_of_straight ((hd.straight hw).targets o ho) (hps hw) en
    rw [hconf o ho] at this
    cases this
  exact hst₁.sub (List.subset_append_right _ _)

/-! ### Blocks -/

/-- Statements run under the lifetime of their block. -/
theorem preserves_statements (ih : ∀ t ∈ ts, Preserves m c whole t) (hw : ∀ t ∈ ts, Written l t)
    (hsw : whole = false → ∀ t ∈ ts, t.straight = true)
    (hcare : c.carefulAll whole Γ l ts = true) (ht : Typed Γ W K)
    (hc : Coherent s l W (K.map Prod.snd)) (hst : whole = false → W.Straight (K.map Prod.snd))
    (h : (c.sequence Γ l U ts).result = .ok (Γ', T)) (hU : ts = [] → U = .unit) :
    ∃ s' W' d, m.RunsAll l ((K.map Prod.snd).map Content.value) s ts s' d.value ∧
      Coherent s' l W' (d :: K.map Prod.snd) ∧
      (whole = false → W'.Straight (d :: K.map Prod.snd)) ∧ Typed Γ' W' K ∧ Refines false T d ∧
      T.defined = true ∧ ∀ x b, s.frame.get? x = some b → s'.frame.get? x = some b := by
  induction ts generalizing Γ U s W with
  | nil =>
    obtain ⟨rfl, rfl⟩ := Checker.sequence_nil h
    have hU := hU rfl
    subst hU
    exact ⟨s, W, .unit, .nil, hc.congr .rfl .rfl, fun hw => (hst hw).add nofun, ht, .unit, rfl,
      fun _ _ h => h⟩
  | cons t us ihs =>
    obtain ⟨Γ₁, T₁, h₁, h₂⟩ := Checker.sequence_cons h
    obtain ⟨hfit, hrest⟩ := Fit.statement hw hsw hcare
    obtain ⟨s₁, W₁, d, hd⟩ := ih t List.mem_cons_self hfit ht hc hst h₁
    cases us with
    | nil =>
      obtain ⟨rfl, rfl⟩ := Checker.sequence_nil h₂
      exact ⟨s₁, W₁, d, .last hd.runs, hd.coherent, hd.straight, hd.typed, hd.refines, hd.defined,
        hd.frame⟩
    | cons u us =>
      -- the value of a statement in between is dropped
      have hdrop : ∃ s₂,
          (if d.value = .unit then pure s₁ else s₁.discard d.value []).result = .ok s₂ ∧
          Coherent s₂ l W₁ (K.map Prod.snd) ∧ s₂.frame = s₁.frame := by
        by_cases hv : d.value = .unit
        · have hc₂ : Coherent s₁ l W₁ (K.map Prod.snd) := by
            have := hd.coherent
            cases d with
            | unit => exact this.congr .rfl .rfl
            | _ => cases hv
          exact ⟨s₁, by rw [if_pos hv]; rfl, hc₂, rfl⟩
        · rw [if_neg hv]
          exact hd.coherent.discard_ok
      obtain ⟨s₂, hd₂, hc₂, e⟩ := hdrop
      obtain ⟨s', W', d', hrun', hrest'⟩ :=
        ihs (fun t h => ih t (List.mem_cons_of_mem _ h))
          (fun t h => hw t (List.mem_cons_of_mem _ h))
          (fun h t ht => hsw h t (List.mem_cons_of_mem _ ht)) (hrest h₁) hd.typed hc₂
          (fun hw => (hd.straight hw).sub (List.subset_append_right _ _)) h₂ nofun
      obtain ⟨hc', hst', ht', hd', hdef', hframe'⟩ := hrest'
      exact ⟨s', W', d', .cons hd.runs hd₂ hc₂.sound hrun', hc', hst', ht', hd', hdef', fun x b h =>
        hframe' x b (e ▸ hd.frame x b h)⟩

/-- The bindings that a block has added are removed at its end. -/
theorem popFrame_statements {v : Value} {V : List Value} (hr : m.RunsAll inner V s ts s' v)
    (hframe : ∀ x b, s.frame.get? x = some b → s'.frame.get? x = some b)
    (hout : ∀ x b, s.frame.get? x = some b → b.lifetime ≠ inner) :
    State.popFrame s'.frame inner = s.frame := by
  have hd := Machine.bigSteps_frame (fun t _ {_ _ _ _} h => Machine.bigValue_frame t h) hr.big
  refine NameMap.ext_get? fun x => ?_
  rw [State.popFrame, NameMap.get?_filter]
  cases hx : s.frame.get? x with
  | some b =>
    rw [hframe x b hx]
    simp [Option.filter, hout x b hx]
  | none =>
    rcases hd x with e | ⟨-, b, hb, hl⟩
    · rw [e, hx]
      rfl
    · rw [hb]
      simp [Option.filter, hl]

theorem preserves_block (ih : ∀ t ∈ ts, Preserves m c whole t) :
    Preserves m c whole (.block sp inner ts) := by
  intro Γ l Γ' T s W K hfit ht hc hst h
  obtain ⟨⟨i, rfl⟩, hw⟩ := hfit.toWritten.block
  obtain ⟨Γ₁, hseq, hwithin, rfl⟩ := Checker.apply_block h
  -- the variables around the block are not its own
  have around : ∀ r ∈ W, r.level ≠ .inside i l := by
    intro r hr e
    have := (hc.level r hr).2
    rw [e, Lifetime.not_within_inside] at this
    cases this
  have hc₀ : Coherent s (.inside i l) W (K.map Prod.snd) :=
    ⟨hc.safe, hc.holds, hc.frame, fun r hr => ⟨(hc.level r hr).1, by
      simp [Lifetime.within, (hc.level r hr).2]⟩⟩
  obtain ⟨s₁, W₁, d, hrun, hc₁, hst₁, ht₁, hd, hdef, hframe⟩ :=
    preserves_statements ih hw hfit.block.2 hfit.block.1 ht hc₀ hst hseq fun _ => rfl
  have hpop : State.popFrame s₁.frame (.inside i l) = s.frame := by
    refine popFrame_statements hrun hframe fun x b hx => ?_
    obtain ⟨r, hr, -, rfl⟩ := (hc.frame x b).1 hx
    exact around r hr
  -- nothing that is left borrows from a variable of the block
  have hout : ∀ o ∈ (d :: K.map Prod.snd).flatMap Content.loans, ∀ r ∈ W₁,
      r.name = o.target.name → r.level ≠ .inside i l := by
    intro o ho r hr e hl
    rw [List.flatMap_cons, List.mem_append] at ho
    rcases ho with ho | ho
    · have := ht₁.outlives hwithin hd ho r hr e
      rw [hl, Lifetime.not_within_inside] at this
      cases this
    · -- an operand before the block borrows from variables that were there before
      obtain ⟨t, ht⟩ := hc.safe.loans o (List.mem_append_right _ ho)
      obtain ⟨r₀, hr₀, e₀⟩ := ht.root
      have hb := hframe _ _ ((hc.frame _ _).2 ⟨r₀, hr₀, rfl, rfl⟩)
      obtain ⟨r₁, hr₁, e₁, hlevel⟩ := (hc₁.frame _ _).1 hb
      have := World.root_unique hc₁.safe.names hr hr₁ (e.trans (e₀.symm.trans e₁.symm))
      subst this
      exact around r₀ hr₀ ((congrArg Binding.lifetime hlevel).trans hl)
  obtain ⟨s', hleave, hc', e⟩ := hc₁.leave_ok hout hpop
  exact ⟨s', _, d, .block hrun (fun t ht => (hw t ht).plain) hpop hleave hc'.sound, hc',
    fun hw => (hst₁ hw).filter _, ht₁.leave rfl, hd, hdef, fun x b h => e ▸ h⟩

/-! ### Extensions -/

/-- Operands run one after the other, and those that have been found are parked. -/
theorem preserves_operands {P P' : Parked} (ih : ∀ t ∈ ts, Preserves m c whole t)
    (hw : ∀ t ∈ ts, Written l t) (hsw : whole = false → ∀ t ∈ ts, t.straight = true)
    (hcare : c.carefulOperands whole l P ts = true) (ht : Typed P.env W K)
    (hc : Coherent s l W (K.map Prod.snd)) (hst : whole = false → W.Straight (K.map Prod.snd))
    (h : (c.park l P ts).result = .ok P') :
    ∃ (s' : State) (W' : World) (N : List (String × Content)),
      m.RunsOperands l ((K.map Prod.snd).map Content.value) s ts s'
        ((N.map Prod.snd).map Content.value) ∧
      P'.names = P.names ++ N.map Prod.fst ∧ Coherent s' l W' ((N.reverse ++ K).map Prod.snd) ∧
      (whole = false → W'.Straight ((N.reverse ++ K).map Prod.snd)) ∧
      Typed P'.env W' (N.reverse ++ K) ∧
      ∀ x b, s.frame.get? x = some b → s'.frame.get? x = some b := by
  induction ts generalizing P s W K with
  | nil =>
    obtain rfl := Checker.park_nil h
    exact ⟨s, W, [], .nil, by simp, hc, hst, ht, fun _ _ h => h⟩
  | cons t us ihs =>
    obtain ⟨⟨Γ₁, T₁⟩, h₁, h₂⟩ := Checker.park_cons h
    obtain ⟨hfit, hrest⟩ := Fit.operand hw hsw hcare
    obtain ⟨s₁, W₁, d, hd⟩ := ih t List.mem_cons_self hfit ht hc hst h₁
    have hpark := hd.typed.park hd.refines hd.defined l.global_isRoot
    obtain ⟨s', W', N, hruns, hnames, hc', hst', ht', hframe'⟩ :=
      ihs (K := (Γ₁.freshName, d) :: K) (fun t h => ih t (List.mem_cons_of_mem _ h))
        (fun t h => hw t (List.mem_cons_of_mem _ h))
        (fun h t ht => hsw h t (List.mem_cons_of_mem _ ht)) (hrest h₁) hpark hd.coherent
        hd.straight h₂
    refine ⟨s', W', (Γ₁.freshName, d) :: N, .cons hd.runs hruns, ?_, ?_, ?_, ?_, fun x b h =>
      hframe' x b (hd.frame x b h)⟩
    · rw [hnames]
      simp [Parked.park]
    · simpa using hc'
    · simpa using hst'
    · simpa using ht'

theorem preserves_tuple (hm : m.extensions = c.extensions)
    (ho : formOf? c.extensions o = some .tuple) (ih : ∀ t ∈ ts, Preserves m c whole t) :
    Preserves m c whole (.ext sp o ts) := by
  intro Γ l Γ' T s W K hfit ht hc hst h
  have hw := hfit.toWritten.ext
  obtain ⟨P, hP, rfl, rfl⟩ := Checker.apply_tuple ho h
  obtain ⟨s', W', N, hruns, hnames, hc', hst', ht', hframe⟩ :=
    preserves_operands ih hw hfit.operands (hfit.tuple ho) ht hc hst hP
  rw [List.nil_append] at hnames
  -- the tuple holds what the operands held, in reverse
  have hloans : ((.compound (N.map Prod.snd) :: K.map Prod.snd).flatMap Content.loans).Perm
      (((N.reverse ++ K).map Prod.snd).flatMap Content.loans) := by
    rw [List.map_append, List.flatMap_append, List.flatMap_cons, Content.loans_compound]
    exact ((((List.reverse_perm N).symm.map _).flatMap_right _)).append_right _
  have hc₁ : Coherent s' l W' (.compound (N.map Prod.snd) :: K.map Prod.snd) := by
    refine hc'.congr hloans ?_
    rw [List.map_append, List.flatMap_append, List.flatMap_cons, Content.cells_compound]
    exact ((((List.reverse_perm N).symm.map _).flatMap_right _)).append_right _
  obtain ⟨hlen, hwhole, hget⟩ := ht'.parked_types (L := N) (by simp +contextual)
  have hrel : P.release.2 =
      (N.map Prod.fst).filterMap fun n => (P.env.get? n).map (·.ty) := by
    rw [Parked.release, hnames]
  refine ⟨s', W', .compound (N.map Prod.snd), ?_, hc₁, fun hw => (hst' hw).sub hloans.subset, ?_,
    ?_, ?_, hframe⟩
  · have hs := hc₁.sound
    rw [Content.value_compound]
    rw [List.map_cons, Content.value_compound] at hs
    exact .tuple (hm ▸ ho) hruns (fun t ht => (hw t ht).plain) hs
  · refine ht'.release ?_
    rw [hnames]
    exact (List.reverse_perm N).symm.map _
  · rw [hrel]
    exact .compound hlen hget
  · rw [hrel, Ty.defined, Ty.allDefined_eq, List.all_eq_true]
    exact hwhole

theorem preserves_conditional {equal : Bool} {lhs rhs onTrue onFalse : Term}
    (hm : m.extensions = c.extensions) (ho : formOf? c.extensions o = some (.conditional equal))
    (ih : ∀ t ∈ [lhs, rhs, onTrue, onFalse], Preserves m c whole t) :
    Preserves m c whole (.ext sp o [lhs, rhs, onTrue, onFalse]) := by
  intro Γ l Γ' T s W K hfit ht hc hst h
  have hw := hfit.toWritten.ext
  obtain ⟨⟨Γ₁, T₁⟩, ⟨Γ₂, T₂⟩, Γ₃, Ts, ⟨Γ₄, T₄⟩, ⟨Γ₅, T₅⟩, hl, hr, hrel, -, htt, hff, hmerge⟩ :=
    Checker.apply_conditional ho h
  obtain ⟨-, hjoin, hunion⟩ := Checker.merge_ok hmerge
  obtain ⟨hfitl, hfit'⟩ := hfit.conditional ho
  obtain ⟨hfitr, hfit''⟩ := hfit' hl
  obtain ⟨hfitt, hfitf⟩ := hfit'' hr hrel
  -- the operands
  obtain ⟨s₁, W₁, d₁, h₁⟩ := ih lhs (by simp) hfitl ht hc hst hl
  obtain ⟨s₂, W₂, d₂, h₂⟩ := ih rhs (by simp) hfitr
    (h₁.typed.park h₁.refines h₁.defined l.global_isRoot) h₁.coherent h₁.straight hr
  -- both operands are dropped before the arm
  have ht₃ : Typed Γ₃ W₂ K := by
    have := (h₂.typed.park h₂.refines h₂.defined l.global_isRoot).release
      (L := [(Γ₂.freshName, d₂), (Γ₁.freshName, d₁)]) (List.Perm.swap _ _ [])
    cases hrel
    exact this
  obtain ⟨taken, htaken⟩ :
      ∃ u, u = if State.takesFirst equal d₁.value d₂.value then onTrue else onFalse := ⟨_, rfl⟩
  obtain ⟨s₃, hb, hc₃, e⟩ := Coherent.branch_ok h₂.coherent taken
  have hst₃ : whole = false → W₂.Straight (K.map Prod.snd) := fun hw =>
    (h₂.straight hw).sub fun o ho =>
      List.mem_append_right _ (List.mem_append_right _ ho)
  -- either arm could be run, and one of them is
  obtain ⟨s₄, W₄, d₄, h₄⟩ := ih onTrue (by simp) hfitt ht₃ hc₃ hst₃ htt
  obtain ⟨s₅, W₅, d₅, h₅⟩ := ih onFalse (by simp) hfitf ht₃ hc₃ hst₃ hff
  have hdef : T.defined = true := Ty.defined_union hunion h₄.defined h₅.defined
  -- the join covers the environment after the one that is
  obtain ⟨s', W', d, hd⟩ : ∃ s' W' d, Landing m whole l K s₃ taken Γ' T s' W' d := by
    rw [htaken]
    split
    · exact ⟨s₄, W₄, d₄, h₄.runs, h₄.coherent, h₄.straight, h₄.typed.join_left h₅.typed hjoin,
        h₄.refines.union_left hunion, hdef, h₄.frame⟩
    · exact ⟨s₅, W₅, d₅, h₅.runs, h₅.coherent, h₅.straight, h₄.typed.join_right h₅.typed hjoin,
        h₅.refines.union_right hunion, hdef, h₅.frame⟩
  exact ⟨s', W', d, .conditional (hm ▸ ho) (fun t ht => (hw t ht).plain) h₁.runs h₂.runs htaken hb
    hc₃.sound hd.runs, hd.coherent, hd.straight, hd.typed, hd.refines, hd.defined,
    fun x b h => hd.frame x b (e ▸ h₂.frame x b (h₁.frame x b h))⟩

/-- **What the checker accepts runs without a fault**, if it is careful. Every step of the run
leaves a sound heap, and the value that is found is one of the type. -/
theorem preserves (hm : m.extensions = c.extensions) (t : Term) : Preserves m c whole t := by
  induction t with
  | access => exact preserves_access
  | borrow => exact preserves_borrow
  | value => exact preserves_value
  | box _ _ ih => exact preserves_box ih
  | letMut _ _ _ _ ih => exact preserves_letMut ih
  | assign _ _ _ ih => exact preserves_assign ih
  | block _ _ _ ih => exact preserves_block ih
  | ext _ o ts ih =>
    intro Γ l Γ' T s W K hfit ht hc hst h
    rcases Checker.apply_ext h with ho | ⟨equal, lhs, rhs, onTrue, onFalse, ho, rfl⟩
    · exact preserves_tuple hm ho ih hfit ht hc hst h
    · exact preserves_conditional hm ho ih hfit ht hc hst h

end Ownership
