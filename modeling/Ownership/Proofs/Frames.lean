import Ownership.Proofs.Checking.Bindings
import Ownership.Proofs.Checking.Declarations
import Ownership.Proofs.ScopeFaults
import Ownership.Proofs.Strategies

/-!
# Scopes before and during a run

The checker and the machine agree on which variables are bound, and under which lifetimes
(`Env.Matches`). The checker forgets the variables of a block by their lifetime, and the machine
goes back to an earlier frame; the checker parks operands under temporary names, which the machine
never hears of; after a conditional the checker joins what both arms leave, and the machine has
taken one of them.

* `Machine.respects_apply`: **a big step of an accepted term keeps the frame and the environment in
  agreement**, and enters no block that declares a variable of the frame.
* `scopes_agree`: **an evaluation of an accepted term never lacks a variable or a rule**, with
  either strategy, and ends with the variables that the checker has foreseen.
-/

namespace Ownership

variable {m : Machine} {c : Checker} {variance : Variance} {Γ Γ₁ Γ' J lhs rhs : Env}
variable {f : NameMap Binding} {l : Lifetime} {ls : List Lifetime} {K N names : List String}
variable {T U : Ty} {t : Term} {ts : List Term} {s : State} {x : String}
variable {b : Binding} {r : Reference} {P P' : Parked} {sp : Span} {o : Nat} {p : Place}

/-! ### Frames and environments -/

namespace Env

/-- **The frame binds the variables of the environment**, under the same lifetimes. What is parked
under the temporary names `K` is known to the checker only. -/
structure Matches (K : List String) (Γ : Env) (f : NameMap Binding) : Prop where
  same : ∀ x, x ∉ K → (Γ.get? x).map (·.lifetime) = (f.get? x).map (·.lifetime)
  parked : ∀ k ∈ K, (∃ i, k = temporary i) ∧ f.get? k = none

namespace Matches

theorem bound (h : Γ.Matches K f) (hx : x ∉ K) (hs : Γ.get? x = some slot) :
    ∃ b, f.get? x = some b ∧ b.lifetime = slot.lifetime := by
  have hsame := h.same x hx
  rw [hs] at hsame
  exact Option.map_eq_some_iff.1 hsame.symm

theorem known (h : Γ.Matches K f) (hb : f.get? x = some b) :
    ∃ s, Γ.get? x = some s ∧ s.lifetime = b.lifetime := by
  have hx : x ∉ K := by
    intro hk
    rw [(h.parked x hk).2] at hb
    cases hb
  have hsame := h.same x hx
  rw [hb] at hsame
  exact Option.map_eq_some_iff.1 hsame

/-- Bindings that stay agree with a frame that stays. -/
theorem continues (h : Γ.Matches K f) (hf : ∀ x b, f.get? x = some b → b.lifetime ∉ ls)
    (hc : Γ.Continues l ls [] Γ') : Γ'.Matches K f where
  same := by
    intro x hx
    rw [← h.same x hx]
    cases hs : Γ.get? x with
    | none =>
      cases hs' : Γ'.get? x with
      | none => rfl
      | some s' =>
        rcases hc.origin x s' hs' with ⟨s, e, -⟩ | ⟨hm, -⟩
        · rw [hs] at e
          cases e
        · cases hm
    | some s =>
      obtain ⟨b, hb, e⟩ := h.bound hx hs
      obtain ⟨s', hs', e', -⟩ := hc.kept x s hs (e ▸ hf x b hb)
      rw [hs', Option.map_some, Option.map_some, e']
  parked := h.parked

/-- **What a term declares is not bound in the frame**, where no variable has the lifetime of a
block of the term. -/
theorem unbound (h : Γ.Matches K f) (hf : ∀ x b, f.get? x = some b → b.lifetime ∉ ls)
    (hc : Γ.Continues l ls N Γ') (hx : x ∈ N) : f.get? x = none := by
  cases hb : f.get? x with
  | none => rfl
  | some b =>
    obtain ⟨s, hs, e⟩ := h.known hb
    exact absurd (e ▸ hc.new x hx s hs) (hf x b hb)

theorem declare (h : Γ.Matches K f) (hx : x ∉ K) :
    Matches K (Γ.insert x ⟨T, l⟩) (f.insert x ⟨r, l⟩) where
  same := by
    intro y hy
    rw [NameMap.get?_insert, NameMap.get?_insert]
    split
    · rfl
    · exact h.same y hy
  parked := by
    intro k hk
    have hne : k ≠ x := fun e => hx (e ▸ hk)
    rw [NameMap.get?_insert, if_neg hne]
    exact h.parked k hk

/-- **An operand is parked**, without a trace in the frame. -/
theorem park (h : Γ.Matches (K ++ names) f) :
    Matches (K ++ (Parked.park l names (Γ, T)).names) (Parked.park l names (Γ, T)).env f where
  same := by
    intro x hx
    simp only [Parked.park, List.mem_append, List.mem_singleton, not_or] at hx ⊢
    rw [NameMap.get?_insert, if_neg hx.2.2]
    exact h.same x fun hm => (List.mem_append.1 hm).elim hx.1 hx.2.1
  parked := by
    intro k hk
    simp only [Parked.park, ← List.append_assoc] at hk
    rcases List.mem_append.1 hk with hk | hk
    · exact h.parked k hk
    · cases List.mem_singleton.1 hk
      obtain ⟨hi, hnew⟩ := Γ.freshName_spec
      refine ⟨hi, ?_⟩
      by_cases hm : Γ.freshName ∈ K ++ names
      · exact (h.parked _ hm).2
      · have hsame := h.same _ hm
        rw [hnew] at hsame
        simpa using hsame.symm

/-- What was parked is taken out again. -/
theorem release (h : P.env.Matches (K ++ P.names) f) : P.release.1.Matches K f where
  same := by
    intro x hx
    rw [Parked.release, NameMap.get?_eraseAll]
    split
    · rename_i hm
      rw [(h.parked x (List.mem_append_right _ hm)).2]
      rfl
    · rename_i hm
      exact h.same x fun hmem => (List.mem_append.1 hmem).elim hx hm
  parked := fun k hk => h.parked k (List.mem_append_left _ hk)

/-- **Two arms are joined**: the frame that either of them leaves agrees with both. -/
theorem join (hj : join variance lhs rhs = .ok J) (h : lhs.Matches K f ∨ rhs.Matches K f) :
    J.Matches K f := by
  obtain ⟨hnone, hsome⟩ := join_ok hj
  have hlifetimes : ∀ x, (J.get? x).map (·.lifetime) = (lhs.get? x).map (·.lifetime) ∧
      (J.get? x).map (·.lifetime) = (rhs.get? x).map (·.lifetime) := by
    intro x
    cases hx : lhs.get? x with
    | none =>
      rw [(hnone x hx).1, (hnone x hx).2]
      exact ⟨rfl, rfl⟩
    | some left =>
      obtain ⟨right, u, hr, e, -, -, hJ⟩ := hsome x left hx
      rw [hJ, hr]
      exact ⟨rfl, congrArg some e⟩
  rcases h with h | h
  · exact ⟨fun x hx => (hlifetimes x).1.trans (h.same x hx), h.parked⟩
  · exact ⟨fun x hx => (hlifetimes x).2.trans (h.same x hx), h.parked⟩

end Matches

end Env

/-! ### Big steps -/

/-- No name in the term is one that the checker may make up. -/
def Term.Named (t : Term) : Prop := ∀ x ∈ t.names, ∀ i, x ≠ Env.temporary i

theorem Term.Named.of_all (h : ∀ x ∈ Term.allNames ts, ∀ i, x ≠ Env.temporary i)
    (ht : t ∈ ts) : t.Named := fun x hx => h x (Term.mem_allNames.2 ⟨t, ht, hx⟩)

theorem Env.Matches.named (h : Γ.Matches K f) (hx : ∀ i, x ≠ Env.temporary i) : x ∉ K := by
  intro hk
  obtain ⟨⟨i, e⟩, -⟩ := h.parked x hk
  exact hx i e

namespace Machine

variable [HashOrder]

/-- **The checker has foreseen the run of the term**: a big step stays in scope and leaves a frame
with the variables of `Γ'`, and no block on the way hides a variable. -/
structure Foreseen (m : Machine) (K : List String) (Γ' : Env) (s : State) (l : Lifetime)
    (t : Term) : Prop where
  yields : Yields (fun x => Γ'.Matches K x.1.frame) (m.bigValue s l t)
  shadowless : m.Shadowless s l t

/-- A run of the term is foreseen if the checker accepts it. -/
def Respects (m : Machine) (c : Checker) (t : Term) : Prop :=
  ∀ {l K Γ Γ' T s}, t.Named → Γ.Matches K s.frame → Untagged s.frame l t.lifetimes →
    (c.apply Γ l t).result = .ok (Γ', T) → m.Foreseen K Γ' s l t

theorem Foreseen.matches {s' : State} {v : Value} (h : m.Foreseen K Γ' s l t)
    (hr : m.bigValue s l t = .ok (s', v)) : Γ'.Matches K s'.frame := by
  have hy := h.yields
  rw [hr] at hy
  exact hy

/-- A value between statements is given up without a fault of scope. -/
theorem yields_between (s : State) (v : Value) :
    Yields (fun _ => True) (if v = .unit then pure s else s.discard v []).result := by
  split
  · trivial
  · exact (s.yields_discard []).mono fun _ _ _ => trivial

theorem branch_frame {s' : State} {v w : Value} (h : (s.branch v w t).result = .ok s') :
    s'.frame = s.frame := by
  obtain ⟨_, _, -, -, rfl⟩ := State.branch_ok.1 h
  rfl

/-- Statements run in scope, one after the other. -/
theorem foreseen_statements (each : ∀ t ∈ ts, m.Respects c t) (hn : ∀ t ∈ ts, t.Named)
    (hΓ : Γ.Matches K s.frame) (hu : Untagged s.frame l (Term.allLifetimes ts))
    (h : (c.sequence Γ l T ts).result = .ok (Γ', U)) :
    Yields (fun _ => True) (m.bigSteps s l ts).result ∧
      ∀ s₀ us, StatementEnters m.extensions m.bigValue s l ts s₀ us →
        ∀ x ∈ Term.allDeclares us, s₀.frame.get? x = none := by
  induction ts generalizing Γ T s with
  | nil =>
    rw [bigSteps_nil]
    exact ⟨trivial, nofun⟩
  | cons t ts ih =>
    obtain ⟨Γ₁, T₁, h₁, h⟩ := Checker.sequence_cons h
    have first := each t List.mem_cons_self (hn t List.mem_cons_self) hΓ hu.left h₁
    -- the statements that are left run from where this one is done
    have rest : ∀ {s₁ v s₂}, m.bigValue s l t = .ok (s₁, v) →
        (if v = .unit then pure s₁ else s₁.discard v []).result = .ok s₂ →
        Yields (fun _ => True) (m.bigSteps s₂ l ts).result ∧
          ∀ s₀ us, StatementEnters m.extensions m.bigValue s₂ l ts s₀ us →
            ∀ x ∈ Term.allDeclares us, s₀.frame.get? x = none := by
      intro s₁ v s₂ hr hd
      have hf : s₂.frame = s₁.frame := discard_frame hd
      refine ih (fun t ht => each t (List.mem_cons_of_mem _ ht))
        (fun t ht => hn t (List.mem_cons_of_mem _ ht)) ?_ ?_ h
      · rw [hf]
        exact first.matches hr
      · rw [hf]
        exact hu.right.declares (bigValue_frame t hr)
    constructor
    · cases ts with
      | nil =>
        rw [bigSteps_singleton]
        exact first.yields.mono fun _ _ _ => trivial
      | cons u us =>
        rw [bigSteps_cons]
        exact first.yields.bind fun x hr _ => (yields_between x.1 x.2).bind fun s₂ hd _ =>
          (rest hr hd).1
    · intro s₀ us he
      cases he with
      | head he => exact first.shadowless s₀ us he
      | tail hr hd he => exact (rest hr hd).2 s₀ us he

/-- Operands run in scope, and what the checker parks meanwhile is not seen. -/
theorem foreseen_operands (each : ∀ t ∈ ts, m.Respects c t) (hn : ∀ t ∈ ts, t.Named)
    (hP : P.env.Matches (K ++ P.names) s.frame)
    (hu : Untagged s.frame l (Term.allLifetimes ts)) (h : (c.park l P ts).result = .ok P') :
    Yields (fun x => P'.env.Matches (K ++ P'.names) x.1.frame) (m.bigStepAll s l ts).result ∧
      ∀ s₀ us, OperandEnters m.extensions m.bigValue s l ts s₀ us →
        ∀ x ∈ Term.allDeclares us, s₀.frame.get? x = none := by
  induction ts generalizing P s with
  | nil =>
    cases Checker.park_nil h
    rw [bigStepAll_nil]
    exact ⟨hP, nofun⟩
  | cons t ts ih =>
    obtain ⟨⟨Γ₁, T₁⟩, h₁, h⟩ := Checker.park_cons h
    have first := each t List.mem_cons_self (hn t List.mem_cons_self) hP hu.left h₁
    have rest := fun {s₁ v} (hr : m.bigValue s l t = .ok (s₁, v)) =>
      ih (fun t ht => each t (List.mem_cons_of_mem _ ht))
        (fun t ht => hn t (List.mem_cons_of_mem _ ht)) (first.matches hr).park
        (hu.right.declares (bigValue_frame t hr)) h
    constructor
    · rw [bigStepAll_cons]
      exact first.yields.bind fun x hr _ => (rest hr).1.map fun _ h => h
    · intro s₀ us he
      cases he with
      | head he => exact first.shadowless s₀ us he
      | tail hr he => exact (rest hr).2 s₀ us he

/-- **A block restores the frame**, and the checker forgets what was declared in it. -/
theorem foreseen_block {inner : Lifetime} (each : ∀ t ∈ ts, m.Respects c t)
    (hn : ∀ t ∈ ts, t.Named) (hΓ : Γ.Matches K s.frame)
    (hu : Untagged s.frame l (inner :: Term.allLifetimes ts))
    (h : (c.apply Γ l (.block sp inner ts)).result = .ok (Γ', T)) :
    m.Foreseen K Γ' s l (.block sp inner ts) := by
  obtain ⟨Γ₁, h₁, -, rfl⟩ := Checker.apply_block h
  have hcont := Checker.continues_statements h₁
  obtain ⟨hy, he⟩ := foreseen_statements each hn hΓ hu.inside h₁
  constructor
  · rw [bigValue_block]
    refine hy.bind fun x _ _ => (State.yields_leave s.frame).mono fun y _ hf => ?_
    rw [hf]
    exact hΓ.continues hu.frame (hcont.leave (l := l))
  · intro s₀ us hent
    cases hent with
    | block => exact fun x hx => hΓ.unbound hu.inside.frame hcont hx
    | inside hent => exact he s₀ us hent

theorem foreseen_tuple (each : ∀ t ∈ ts, m.Respects c t) (hn : ∀ t ∈ ts, t.Named)
    (hm : m.extensions = c.extensions) (hΓ : Γ.Matches K s.frame)
    (hu : Untagged s.frame l (Term.allLifetimes ts))
    (hform : formOf? c.extensions o = some .tuple)
    (h : (c.apply Γ l (.ext sp o ts)).result = .ok (Γ', T)) :
    m.Foreseen K Γ' s l (.ext sp o ts) := by
  obtain ⟨P, hP, rfl, -⟩ := Checker.apply_tuple hform h
  have hstart : Env.Matches (K ++ []) Γ s.frame := by rwa [List.append_nil]
  obtain ⟨hy, he⟩ := foreseen_operands (P := ⟨Γ, []⟩) each hn hstart hu hP
  rw [← hm] at hform
  constructor
  · rw [bigValue_tuple sp hform]
    exact hy.bind fun x _ hx => hx.release
  · intro s₀ us hent
    cases hent with
    | tuple _ hent => exact he s₀ us hent
    | lhs hform' => cases hform.symm.trans hform'
    | rhs hform' => cases hform.symm.trans hform'
    | arm hform' => cases hform.symm.trans hform'

/-- **One arm is taken**, and it leaves what the checker expects of both. -/
theorem foreseen_conditional {equal : Bool} {left right onTrue onFalse : Term}
    (each : ∀ t ∈ [left, right, onTrue, onFalse], m.Respects c t)
    (hn : ∀ t ∈ [left, right, onTrue, onFalse], t.Named) (hm : m.extensions = c.extensions)
    (hΓ : Γ.Matches K s.frame)
    (hu : Untagged s.frame l (Term.allLifetimes [left, right, onTrue, onFalse]))
    (hform : formOf? c.extensions o = some (.conditional equal))
    (h : (c.apply Γ l (.ext sp o [left, right, onTrue, onFalse])).result = .ok (Γ', T)) :
    m.Foreseen K Γ' s l (.ext sp o [left, right, onTrue, onFalse]) := by
  obtain ⟨⟨Γl, Tl⟩, ⟨Γr, Tr⟩, Γ₁, us, ⟨Γt, Tt⟩, ⟨Γf, Tf⟩, hl, hr, hrel, -, ht, hf, hmerge⟩ :=
    Checker.apply_conditional hform h
  obtain ⟨-, hj, -⟩ := Checker.merge_ok hmerge
  rw [← hm] at hform
  -- each operand is parked after its run
  have first := each left (by simp) (hn left (by simp)) hΓ hu.left hl
  have second : ∀ {s₁ v}, m.bigValue s l left = .ok (s₁, v) →
      m.Foreseen (K ++ (Parked.park l [] (Γl, Tl)).names) Γr s₁ l right := by
    intro s₁ v h₁
    have hpark : Env.Matches (K ++ []) Γl s₁.frame := by
      rw [List.append_nil]
      exact first.matches h₁
    exact each right (by simp) (hn right (by simp)) hpark.park
      (hu.right.declares (bigValue_frame left h₁)).left hr
  -- and the arm that is taken runs once both are released
  have arm : ∀ {s₁ v s₂ w s₃} taken, m.bigValue s l left = .ok (s₁, v) →
      m.bigValue s₁ l right = .ok (s₂, w) → s₃.frame = s₂.frame →
      taken = (if State.takesFirst equal v w then onTrue else onFalse) →
      m.Foreseen K Γ' s₃ l taken := by
    intro s₁ v s₂ w s₃ taken h₁ h₂ hs₃ htaken
    have hΓ₁ := ((second h₁).matches h₂).park (T := Tr) (l := l) |>.release
    have hu₂ := (hu.right.declares (bigValue_frame left h₁)).right.declares
      (bigValue_frame right h₂)
    rw [← hrel, ← hs₃] at hΓ₁
    rw [← hs₃] at hu₂
    rw [htaken]
    split
    · have third := each onTrue (by simp) (hn onTrue (by simp)) hΓ₁ hu₂.left ht
      exact ⟨third.yields.mono fun x _ hx => .join hj (.inl hx), third.shadowless⟩
    · have fourth := each onFalse (by simp) (hn onFalse (by simp)) hΓ₁ hu₂.right.left hf
      exact ⟨fourth.yields.mono fun x _ hx => .join hj (.inr hx), fourth.shadowless⟩
  constructor
  · rw [bigValue_conditional sp hform]
    exact first.yields.bind fun x h₁ _ => (second h₁).yields.bind fun y h₂ _ =>
      (State.yields_branch _).bind fun s₃ _ hs₃ => (arm _ h₁ h₂ hs₃ rfl).yields
  · intro s₀ us hent
    cases hent with
    | tuple hform' => cases hform.symm.trans hform'
    | lhs _ hent => exact first.shadowless s₀ us hent
    | rhs _ h₁ hent => exact (second h₁).shadowless s₀ us hent
    | arm hform' h₁ h₂ htaken hb hent =>
      cases hform.symm.trans hform'
      exact (arm _ h₁ h₂ (branch_frame hb) htaken).shadowless s₀ us hent

/-- **A run of an accepted term is foreseen.** -/
theorem respects_apply (hm : m.extensions = c.extensions) (t : Term) : m.Respects c t := by
  induction t with
  | value sp v =>
    intro l K Γ Γ' T s hn hΓ hu h
    obtain ⟨-, rfl, -⟩ := Checker.apply_value h
    refine ⟨?_, nofun⟩
    rw [bigValue_value]
    exact hΓ
  | access sp k p =>
    intro l K Γ Γ' T s hn hΓ hu h
    have hcont := Checker.continues_apply _ h
    obtain ⟨slot, hs, -⟩ := Checker.read_ok (Checker.apply_access h)
    obtain ⟨b, hb, -⟩ := hΓ.bound (hΓ.named (hn p.name (by simp [Term.names]))) hs
    refine ⟨?_, nofun⟩
    rw [bigValue_access]
    refine (State.yields_access hb k).mono fun x _ hf => ?_
    rw [hf]
    exact hΓ.continues hu.frame hcont
  | borrow sp mutable p =>
    intro l K Γ Γ' T s hn hΓ hu h
    obtain ⟨rfl, hborrow⟩ := Checker.apply_borrow h
    obtain ⟨slot, hs, -⟩ := Checker.borrow_ok hborrow
    obtain ⟨b, hb, -⟩ := hΓ.bound (hΓ.named (hn p.name (by simp [Term.names]))) hs
    refine ⟨?_, nofun⟩
    rw [bigValue_borrow]
    exact (State.yields_borrow hb).map fun _ _ => hΓ
  | box sp t ih =>
    intro l K Γ Γ' T s hn hΓ hu h
    obtain ⟨U, h₁, -⟩ := Checker.apply_box h
    have content := ih hn hΓ hu h₁
    constructor
    · rw [bigValue_box]
      exact content.yields.bind fun x _ hx => hx
    · intro s₀ us hent
      cases hent with
      | box hent => exact content.shadowless s₀ us hent
  | letMut sp x xs t ih =>
    intro l K Γ Γ' T s hn hΓ hu h
    obtain ⟨-, Γ₁, U, h₁, rfl, -⟩ := Checker.apply_letMut h
    have init := ih (fun y hy => hn y (List.mem_cons_of_mem _ hy)) hΓ hu h₁
    constructor
    · rw [bigValue_letMut]
      exact init.yields.bind fun y _ hy => hy.declare (hΓ.named (hn x List.mem_cons_self))
    · intro s₀ us hent
      cases hent with
      | letMut hent => exact init.shadowless s₀ us hent
  | assign sp p t ih =>
    intro l K Γ Γ' T s hn hΓ hu h
    obtain ⟨-, Γ₁, U, -, h₁, ha, -⟩ := Checker.apply_assign h
    obtain ⟨-, -, hw⟩ := Checker.assign_ok ha
    obtain ⟨slot, hadmits⟩ := admits_of_write hw
    have source := ih (fun y hy => hn y (List.mem_cons_of_mem _ hy)) hΓ hu h₁
    constructor
    · rw [bigValue_assign]
      refine source.yields.bind fun x _ hx => ?_
      obtain ⟨b, hb, -⟩ := hx.bound (hx.named (hn p.name List.mem_cons_self)) hadmits.slot
      refine (State.yields_assign hb x.2).mono fun y _ hf => ?_
      rw [hf]
      exact hx.continues (fun _ _ _ => List.not_mem_nil) (.of_write (l := l) hw)
    · intro s₀ us hent
      cases hent with
      | assign hent => exact source.shadowless s₀ us hent
  | block sp inner ts ih =>
    intro l K Γ Γ' T s hn hΓ hu h
    exact foreseen_block ih (fun t ht => .of_all hn ht) hΓ hu h
  | ext sp o ts ih =>
    intro l K Γ Γ' T s hn hΓ hu h
    rcases Checker.apply_ext h with hform | ⟨equal, left, right, onTrue, onFalse, hform, rfl⟩
    · exact foreseen_tuple ih (fun t ht => .of_all hn ht) hm hΓ hu hform h
    · exact foreseen_conditional ih (fun t ht => .of_all hn ht) hm hΓ hu hform h

end Machine

/-- The checker accepts no literals but integers. -/
theorem Checker.plain_of_accepts (t : Term) (h : c.Accepts ⟨Γ, l, t⟩) : t.Plain := by
  induction t generalizing Γ l with
  | value sp v =>
    obtain ⟨⟨Γ', T⟩, h⟩ := h
    obtain ⟨⟨n, rfl⟩, -⟩ := apply_value h
    exact fun v hv => ⟨n, List.mem_singleton.1 hv⟩
  | access => exact fun v hv => nomatch hv
  | borrow => exact fun v hv => nomatch hv
  | box sp t ih =>
    obtain ⟨⟨Γ', T⟩, h⟩ := h
    obtain ⟨U, h₁, -⟩ := apply_box h
    exact ih ⟨_, h₁⟩
  | letMut sp x xs t ih =>
    obtain ⟨⟨Γ', T⟩, h⟩ := h
    obtain ⟨-, Γ₁, U, h₁, -⟩ := apply_letMut h
    exact ih ⟨_, h₁⟩
  | assign sp p t ih =>
    obtain ⟨⟨Γ', T⟩, h⟩ := h
    obtain ⟨-, Γ₁, U, -, h₁, -⟩ := apply_assign h
    exact ih ⟨_, h₁⟩
  | block sp inner ts ih =>
    obtain ⟨⟨Γ', T⟩, h⟩ := h
    obtain ⟨Γ₁, h₁, -⟩ := apply_block h
    intro v hv
    rw [Term.values_block, List.mem_flatMap] at hv
    obtain ⟨t, ht, hv⟩ := hv
    obtain ⟨Γ₂, h₂⟩ := accepts_of_mem_sequence h₁ (List.mem_reverse.1 ht)
    exact ih t (List.mem_reverse.1 ht) h₂ v hv
  | ext sp o ts ih =>
    obtain ⟨⟨Γ', T⟩, h⟩ := h
    have each : ∀ t ∈ ts, ∃ Γ₂, c.Accepts ⟨Γ₂, l, t⟩ := by
      rcases apply_ext h with hform | ⟨e, left, right, onTrue, onFalse, hform, rfl⟩
      · obtain ⟨P, hP, -⟩ := apply_tuple hform h
        exact fun t ht => accepts_of_mem_park hP ht
      · obtain ⟨x, y, Γ₁, us, z, w, hx, hy, -, -, hz, hw, -⟩ := apply_conditional hform h
        simp only [List.forall_mem_cons, List.not_mem_nil, false_imp_iff, implies_true, and_true]
        exact ⟨⟨_, x, hx⟩, ⟨_, y, hy⟩, ⟨_, z, hz⟩, ⟨_, w, hw⟩⟩
    intro v hv
    rw [Term.values_ext, List.mem_flatMap] at hv
    obtain ⟨t, ht, hv⟩ := hv
    obtain ⟨Γ₂, h₂⟩ := each t (List.mem_reverse.1 ht)
    exact ih t (List.mem_reverse.1 ht) h₂ v hv

open Machine

/-- **Scopes are the same before and during a run.** The frame binds the variables of the
environment under the same lifetimes, the blocks of the term have new lifetimes, and no name in the
term is one that the checker may make up. If the checker accepts the term, then no evaluation of it
lacks a variable or a rule, whatever the strategy, and one that comes to an end leaves a frame with
the variables of the environment that the checker has left. -/
theorem scopes_agree [HashOrder] (strategy : Strategy)
    (hf : ∀ x, (Γ.get? x).map (·.lifetime) = (s.frame.get? x).map (·.lifetime))
    (hu : Untagged s.frame l t.lifetimes) (hn : ∀ x ∈ t.names, ¬ "$tmp".toList <+: x.toList)
    (h : (c.apply Γ l t).result = .ok (Γ', T)) :
    (∀ x, (evaluate ⟨strategy, false, c.extensions⟩ s l t).result ≠
      .error (.unboundVariable x)) ∧
    (∀ u, (evaluate ⟨strategy, false, c.extensions⟩ s l t).result ≠ .error (.stuck u)) ∧
    ∀ s' v, (evaluate ⟨strategy, false, c.extensions⟩ s l t).result = .ok (s', v) →
      ∀ x, (Γ'.get? x).map (·.lifetime) = (s'.frame.get? x).map (·.lifetime) := by
  have hΓ : Γ.Matches [] s.frame := ⟨fun x _ => hf x, nofun⟩
  have hrun : Foreseen ⟨strategy, false, c.extensions⟩ [] Γ' s l t :=
    respects_apply rfl t (fun x hx => Env.ne_temporary (hn x hx)) hΓ hu h
  have hp : t.Plain := Checker.plain_of_accepts t ⟨_, h⟩
  rw [evaluate_unchecked c.extensions strategy hp hu hrun.shadowless]
  have inScope : ∀ e, bigValue ⟨strategy, false, c.extensions⟩ s l t = .error e →
      ¬ e.Scoping := by
    intro e he
    have hy := hrun.yields
    rw [he] at hy
    exact hy
  exact ⟨fun x e => inScope _ e trivial, fun u e => inScope _ e trivial,
    fun s' v e x => (hrun.matches e).same x List.not_mem_nil⟩

/-- `(let mut c = 7, if copy a == { let mut d = 1; copy d } (let mut e = 1) (let mut e = 2))` -/
def declaresInParts : Term :=
  .ext {} 30 [.letMut {} "c" {} (.value {} (.int 7)),
    .ext {} 40 [.access {} .copy (.var "a"),
      .block {} (.inside 2 (.inside 1 (.root 0)))
        [.letMut {} "d" {} (.value {} (.int 1)), .access {} .copy (.var "d")],
      .letMut {} "e" {} (.value {} (.int 1)), .letMut {} "e" {} (.value {} (.int 2))]]

/-- The variables around `declaresInParts`. -/
def beforeParts : Env := .declaring (.inside 1 (.root 0)) [("a", .int), ("b", .box .int)]

/-- The variables after it. -/
def afterParts : Env := .declaring (.inside 1 (.root 0))
  [("a", .int), ("b", .box .int), ("c", .int), ("e", .int)]

/-- A state with the variables of `beforeParts`, where `b` owns the third cell. -/
def stateBeforeParts : State where
  frame := (NameMap.empty.insert "a" ⟨.borrowed 0, .inside 1 (.root 0)⟩).insert "b"
    ⟨.borrowed 1, .inside 1 (.root 0)⟩
  store := ⟨#[some ⟨.inside 1 (.root 0), .int 1⟩, some ⟨.inside 1 (.root 0), .ref (.owned 2)⟩,
    some ⟨.root 0, .int 5⟩]⟩

theorem scopes_agree_inParts :
    (∀ x, (beforeParts.get? x).map (·.lifetime) =
      (stateBeforeParts.frame.get? x).map (·.lifetime)) ∧
    Untagged stateBeforeParts.frame (.inside 1 (.root 0)) declaresInParts.lifetimes ∧
    (∀ x ∈ declaresInParts.names, ¬ "$tmp".toList <+: x.toList) ∧
    (Checker.apply { extensions := Extension.all } beforeParts (.inside 1 (.root 0))
      declaresInParts).result = .ok (afterParts, .compound [.unit, .unit]) ∧
    ∀ strategy,
      (∀ x, (evaluate ⟨strategy, false, Extension.all⟩ stateBeforeParts (.inside 1 (.root 0))
        declaresInParts).result ≠ .error (.unboundVariable x)) ∧
      (∀ u, (evaluate ⟨strategy, false, Extension.all⟩ stateBeforeParts (.inside 1 (.root 0))
        declaresInParts).result ≠ .error (.stuck u)) ∧
      ∀ s' v, (evaluate ⟨strategy, false, Extension.all⟩ stateBeforeParts (.inside 1 (.root 0))
          declaresInParts).result = .ok (s', v) →
        ∀ x, (afterParts.get? x).map (·.lifetime) = (s'.frame.get? x).map (·.lifetime) := by
  have hf : ∀ x, (beforeParts.get? x).map (·.lifetime) =
      (stateBeforeParts.frame.get? x).map (·.lifetime) := by
    intro x
    simp only [beforeParts, Env.declaring, stateBeforeParts, List.foldl, NameMap.get?_insert]
    split_ifs <;> rfl
  have hall : ∀ b ∈ stateBeforeParts.frame.values,
      b.lifetime ∉ declaresInParts.lifetimes := by decide
  have hu : Untagged stateBeforeParts.frame (.inside 1 (.root 0)) declaresInParts.lifetimes :=
    ⟨by decide, by decide, fun _ b hb => hall b (NameMap.mem_values hb)⟩
  have hn : ∀ x ∈ declaresInParts.names, ¬ "$tmp".toList <+: x.toList := by decide
  have h : (Checker.apply { extensions := Extension.all } beforeParts (.inside 1 (.root 0))
      declaresInParts).result = .ok (afterParts, .compound [.unit, .unit]) := rfl
  exact ⟨hf, hu, hn, h, fun strategy =>
    scopes_agree (c := { extensions := Extension.all }) strategy hf hu hn h⟩

end Ownership
