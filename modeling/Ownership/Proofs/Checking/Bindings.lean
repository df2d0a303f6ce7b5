import Ownership.Proofs.Checking.Sites
import Ownership.Proofs.Checking.Skeletons
import Ownership.Term.Parts

/-!
# The bindings around a term

What typing a term does to the variables around it (`Env.Continues`). A variable that no block of
the term forgets keeps its lifetime and the skeleton of its type, and a variable that is new has
been declared by the term, under the lifetime that the term is typed under. This takes no
assumptions about the term: which blocks may forget a variable is told by its lifetime.

* `Checker.continues_apply`: **typing a term continues the environment that it starts from.**
* `Checker.surroundings_kept`: if the blocks of the term have lifetimes of their own, everything
  around it stays, and a block leaves no variable of its own.
-/

namespace Ownership

variable {c : Checker} {variance : Variance} {Γ Γ₁ Γ' J lhs rhs : Env} {l inner : Lifetime}
variable {ls ls' : List Lifetime} {N N' names : List String} {T U old : Ty} {t : Term}
variable {ts : List Term} {s s' : Slot} {m strong : Bool} {p : Place} {x : String}
variable {sp xs : Span} {o : Nat} {P P' : Parked}

namespace Env

/-- **The environment continues** `Γ` with the variables `N`, declared under `l`. Only variables of
the lifetimes `ls` may have been forgotten on the way, and only these may have been declared
again. -/
structure Continues (l : Lifetime) (ls : List Lifetime) (N : List String) (Γ Γ' : Env) : Prop where
  kept : ∀ x s, Γ.get? x = some s → s.lifetime ∉ ls →
    ∃ s', Γ'.get? x = some s' ∧ s'.lifetime = s.lifetime ∧ s'.ty.skeleton = s.ty.skeleton
  origin : ∀ x s', Γ'.get? x = some s' →
    (∃ s, Γ.get? x = some s ∧ s'.lifetime = s.lifetime) ∨ x ∈ N ∧ s'.lifetime = l
  new : ∀ x ∈ N, ∀ s, Γ.get? x = some s → s.lifetime ∈ ls
  /-- Operands are parked in the outermost scope, so a block that forgets it may forget them. -/
  bound : l ∉ ls → l.global ∉ ls → ∀ x ∈ N, ∃ s', Γ'.get? x = some s' ∧ s'.lifetime = l

namespace Continues

theorem refl (Γ : Env) : Continues l ls [] Γ Γ where
  kept := fun _ s hs _ => ⟨s, hs, rfl, rfl⟩
  origin := fun _ s hs => .inl ⟨s, hs, rfl⟩
  new := nofun
  bound := nofun

/-- More blocks forget more. -/
theorem mono (h : Continues l ls N Γ Γ') (hls : ∀ k ∈ ls, k ∈ ls') : Continues l ls' N Γ Γ' where
  kept := fun x s hs hk => h.kept x s hs fun hm => hk (hls _ hm)
  origin := h.origin
  new := fun x hx s hs => hls _ (h.new x hx s hs)
  bound := fun hl hg => h.bound (fun hm => hl (hls _ hm)) fun hm => hg (hls _ hm)

theorem trans (h : Continues l ls N Γ Γ₁) (h' : Continues l ls N' Γ₁ Γ') :
    Continues l ls (N ++ N') Γ Γ' where
  kept := by
    intro x s hs hk
    obtain ⟨s₁, hs₁, e₁, es₁⟩ := h.kept x s hs hk
    obtain ⟨s', hs', e', es'⟩ := h'.kept x s₁ hs₁ (e₁ ▸ hk)
    exact ⟨s', hs', e'.trans e₁, es'.trans es₁⟩
  origin := by
    intro x s' hs'
    rcases h'.origin x s' hs' with ⟨s₁, hs₁, e'⟩ | ⟨hx, e'⟩
    · rcases h.origin x s₁ hs₁ with ⟨s, hs, e⟩ | ⟨hx, e⟩
      · exact .inl ⟨s, hs, e'.trans e⟩
      · exact .inr ⟨List.mem_append_left _ hx, e'.trans e⟩
    · exact .inr ⟨List.mem_append_right _ hx, e'⟩
  new := by
    intro x hx s hs
    rcases List.mem_append.1 hx with hx | hx
    · exact h.new x hx s hs
    · -- if it were kept, it would be bound where it is declared
      by_contra hk
      obtain ⟨s₁, hs₁, e₁, -⟩ := h.kept x s hs hk
      exact hk (e₁ ▸ h'.new x hx s₁ hs₁)
  bound := by
    intro hl hg x hx
    rcases List.mem_append.1 hx with hx | hx
    · obtain ⟨s₁, hs₁, rfl⟩ := h.bound hl hg x hx
      obtain ⟨s', hs', e', -⟩ := h'.kept x s₁ hs₁ hl
      exact ⟨s', hs', e'⟩
    · exact h'.bound hl hg x hx

/-- A slot keeps its lifetime and the skeleton of its type. -/
theorem insert (hs : Γ.get? x = some s) (ht : T.skeleton = s.ty.skeleton) :
    Continues l ls [] Γ (Γ.insert x ⟨T, s.lifetime⟩) where
  kept := by
    intro y s₁ hs₁ _
    rw [NameMap.get?_insert]
    split
    · rename_i e
      subst e
      cases hs.symm.trans hs₁
      exact ⟨_, rfl, rfl, ht⟩
    · exact ⟨s₁, hs₁, rfl, rfl⟩
  origin := by
    intro y s' hs'
    rcases NameMap.get?_insert_some hs' with ⟨rfl, rfl⟩ | ⟨-, hs'⟩
    · exact .inl ⟨s, hs, rfl⟩
    · exact .inl ⟨s', hs', rfl⟩
  new := nofun
  bound := nofun

/-- **A variable is declared** that was not bound at first. -/
theorem declare (h : Continues l ls N Γ Γ₁) (hx : Γ.get? x = none) :
    Continues l ls (x :: N) Γ (Γ₁.insert x ⟨T, l⟩) where
  kept := by
    intro y s hs hk
    have hne : y ≠ x := by
      rintro rfl
      rw [hx] at hs
      cases hs
    rw [NameMap.get?_insert, if_neg hne]
    exact h.kept y s hs hk
  origin := by
    intro y s' hs'
    rcases NameMap.get?_insert_some hs' with ⟨rfl, rfl⟩ | ⟨-, hs'⟩
    · exact .inr ⟨List.mem_cons_self, rfl⟩
    · exact (h.origin y s' hs').imp_right fun ⟨hy, e⟩ => ⟨List.mem_cons_of_mem _ hy, e⟩
  new := by
    intro y hy s hs
    rcases List.mem_cons.1 hy with rfl | hy
    · rw [hx] at hs
      cases hs
    · exact h.new y hy s hs
  bound := by
    intro hl hg y hy
    rw [NameMap.get?_insert]
    split
    · exact ⟨_, rfl, rfl⟩
    · rename_i hne
      exact h.bound hl hg y ((List.mem_cons.1 hy).resolve_left hne)

/-- **A write changes no skeleton.** What it puts in the stead of a part is compatible with the
part. -/
theorem of_write (h : write variance Γ p T strong = .ok Γ') : Continues l ls [] Γ Γ' := by
  have hslots : Γ.Slots (fun x s' => ∃ s, Γ.get? x = some s ∧ s'.lifetime = s.lifetime ∧
      s'.ty.skeleton = s.ty.skeleton) Γ' := by
    refine writeUpTo_slots (Q := fun _ => True) (fun _ _ _ _ _ _ _ _ _ => trivial)
      (fun Γ₁ q s old new h₁ _ hadm hf hnew => ?_)
      ⟨fun _ => Iff.rfl, fun x s hs => ⟨s, hs, rfl, rfl⟩⟩ trivial h
    obtain ⟨s₀, hs₀, e, es⟩ := h₁.slot _ _ hadm.slot
    have hpart : new.skeleton = old.skeleton := by
      rcases hnew with ⟨-, rfl⟩ | hu
      · obtain ⟨current, ht, hc⟩ := hadm.compatible
        cases typeOf_reached hadm.slot hf ht
        exact (skeleton_of_compatible hc).symm
      · exact (Ty.skeleton_of_union hu).2
    exact ⟨s₀, hs₀, e, (Ty.skeleton_replaceAt hf hpart).trans es⟩
  refine ⟨fun x s hs _ => ?_, fun x s' hs' => ?_, nofun, nofun⟩
  · obtain ⟨s', hs', s₁, hs₁, e⟩ := hslots.bound hs
    cases hs.symm.trans hs₁
    exact ⟨s', hs', e⟩
  · obtain ⟨s, hs, e, -⟩ := hslots.slot x s' hs'
    exact .inl ⟨s, hs, e⟩

/-- **A block is left**, and with it all that has been declared in it. -/
theorem leave (h : Continues inner ls N Γ Γ₁) :
    Continues l (inner :: ls) [] Γ (Γ₁.dropLifetime inner) where
  kept := by
    intro x s hs hk
    rw [List.mem_cons, not_or] at hk
    obtain ⟨s', hs', e, es⟩ := h.kept x s hs hk.2
    exact ⟨s', get?_dropLifetime.2 ⟨hs', e ▸ hk.1⟩, e, es⟩
  origin := by
    intro x s' hs'
    obtain ⟨hs', hne⟩ := get?_dropLifetime.1 hs'
    rcases h.origin x s' hs' with hs | ⟨-, e⟩
    · exact .inl hs
    · exact absurd e hne
  new := nofun
  bound := nofun

/-- **Two arms are joined.** What either of them has declared is bound after both. -/
theorem join (h₁ : Continues l ls N Γ lhs) (h₂ : Continues l ls N' Γ rhs)
    (hj : join variance lhs rhs = .ok J) : Continues l ls (N ++ N') Γ J := by
  have left : ∀ {x s}, lhs.get? x = some s → ∃ s', J.get? x = some s' ∧
      s'.lifetime = s.lifetime ∧ s'.ty.skeleton = s.ty.skeleton := by
    intro x s hs
    obtain ⟨r, u, -, -, -, hu, hJ⟩ := (join_ok hj).2 x s hs
    exact ⟨_, hJ, rfl, (Ty.skeleton_of_union hu).2⟩
  refine ⟨fun x s hs hk => ?_, fun x s' hs' => ?_, fun x hx s hs => ?_, fun hl hg x hx => ?_⟩
  · obtain ⟨s₁, hs₁, e₁, es₁⟩ := h₁.kept x s hs hk
    obtain ⟨s', hs', e, es⟩ := left hs₁
    exact ⟨s', hs', e.trans e₁, es.trans es₁⟩
  · obtain ⟨s₁, -, hs₁, -, e, -⟩ := joined_of_join hj hs'
    rw [e]
    exact (h₁.origin x s₁ hs₁).imp_right fun ⟨hx, e⟩ => ⟨List.mem_append_left _ hx, e⟩
  · exact (List.mem_append.1 hx).elim (h₁.new x · s hs) (h₂.new x · s hs)
  · rcases List.mem_append.1 hx with hx | hx
    · obtain ⟨s₁, hs₁, e₁⟩ := h₁.bound hl hg x hx
      obtain ⟨s', hs', e, -⟩ := left hs₁
      exact ⟨s', hs', e.trans e₁⟩
    · obtain ⟨s₁, hs₁, e₁⟩ := h₂.bound hl hg x hx
      obtain ⟨-, t, -, -, -, -, hJ⟩ := joined_of_right hj hs₁
      exact ⟨_, hJ, e₁⟩

/-- Names that are not declared on the way are taken out before and after. -/
theorem eraseAll (h : Continues l ls N Γ Γ')
    (hn : l.global ∉ ls → ∀ x ∈ N, x ∉ names) :
    Continues l ls N (Γ.eraseAll names) (Γ'.eraseAll names) where
  kept := by
    intro x s hs hk
    obtain ⟨hx, hs⟩ := NameMap.get?_eraseAll_some.1 hs
    obtain ⟨s', hs', e⟩ := h.kept x s hs hk
    exact ⟨s', NameMap.get?_eraseAll_some.2 ⟨hx, hs'⟩, e⟩
  origin := by
    intro x s' hs'
    obtain ⟨hx, hs'⟩ := NameMap.get?_eraseAll_some.1 hs'
    exact (h.origin x s' hs').imp_left fun ⟨s, hs, e⟩ =>
      ⟨s, NameMap.get?_eraseAll_some.2 ⟨hx, hs⟩, e⟩
  new := fun x hx s hs => h.new x hx s (NameMap.get?_eraseAll_some.1 hs).2
  bound := by
    intro hl hg x hx
    obtain ⟨s', hs', e⟩ := h.bound hl hg x hx
    exact ⟨s', NameMap.get?_eraseAll_some.2 ⟨hn hg x hx, hs'⟩, e⟩

end Continues

/-! ### Operands -/

/-- The temporary of the last operand is new, so taking it out brings back what was there. -/
theorem eraseAll_park (names : List String) (Γ : Env) (T : Ty) :
    (Parked.park l names (Γ, T)).env.eraseAll (Parked.park l names (Γ, T)).names =
      Γ.eraseAll names := by
  refine NameMap.ext_get? fun x => ?_
  simp only [Parked.park, NameMap.get?_eraseAll, NameMap.get?_insert, List.mem_append,
    List.mem_singleton]
  by_cases hx : x ∈ names
  · simp [hx]
  · by_cases e : x = Γ.freshName
    · simp [e, (freshName_spec Γ).2]
    · simp [hx, e]

/-- **Operands are parked** in an environment that continues `Γ` apart from them. -/
structure Holds (l : Lifetime) (ls : List Lifetime) (N : List String) (Γ : Env) (P : Parked) :
    Prop where
  goesOn : Continues l ls N Γ (P.env.eraseAll P.names)
  held : l.global ∉ ls → ∀ n ∈ P.names, ∃ s, P.env.get? n = some s ∧ s.lifetime = l.global

namespace Holds

theorem nil (Γ : Env) : Holds l ls [] Γ ⟨Γ, []⟩ := ⟨.refl Γ, nofun⟩

/-- **One more operand is parked.** -/
theorem park (h : Holds l ls N Γ P) (he : Continues l ls N' P.env Γ₁) :
    Holds l ls (N ++ N') Γ (Parked.park l P.names (Γ₁, T)) where
  goesOn := by
    rw [eraseAll_park]
    -- what is held has not been declared again
    refine h.goesOn.trans (he.eraseAll fun hg x hx hn => ?_)
    obtain ⟨s, hs, e⟩ := h.held hg x hn
    exact hg (e ▸ he.new x hx s hs)
  held := by
    intro hg n hn
    simp only [Parked.park, List.mem_append, List.mem_singleton] at hn ⊢
    rw [NameMap.get?_insert]
    split
    · exact ⟨_, rfl, rfl⟩
    · rename_i hne
      obtain ⟨s, hs, e⟩ := h.held hg n (hn.resolve_right hne)
      obtain ⟨s', hs', e', -⟩ := he.kept n s hs (e ▸ hg)
      exact ⟨s', hs', e'.trans e⟩

end Holds

end Env

namespace Checker

/-- Typing the term continues the environment. -/
def Continues (c : Checker) (ls : List Lifetime) (t : Term) : Prop :=
  ∀ {l Γ Γ' T}, (c.apply Γ l t).result = .ok (Γ', T) → Env.Continues l ls t.declares Γ Γ'

theorem continues_sequence (each : ∀ t ∈ ts, c.Continues ls t)
    (h : (c.sequence Γ l T ts).result = .ok (Γ', U)) :
    Env.Continues l ls (Term.allDeclares ts) Γ Γ' := by
  induction ts generalizing Γ T with
  | nil =>
    obtain ⟨rfl, rfl⟩ := sequence_nil h
    exact .refl _
  | cons t ts ih =>
    obtain ⟨Γ₁, T₁, h₁, h⟩ := sequence_cons h
    exact (each t List.mem_cons_self h₁).trans
      (ih (fun t ht => each t (List.mem_cons_of_mem _ ht)) h)

theorem holds_park (each : ∀ t ∈ ts, c.Continues ls t) (hP : Env.Holds l ls N Γ P)
    (h : (c.park l P ts).result = .ok P') : Env.Holds l ls (N ++ Term.allDeclares ts) Γ P' := by
  induction ts generalizing P N with
  | nil =>
    cases park_nil h
    rw [Term.allDeclares, List.append_nil]
    exact hP
  | cons t ts ih =>
    obtain ⟨⟨Γ₁, T₁⟩, h₁, h⟩ := park_cons h
    have first := hP.park (T := T₁) (each t List.mem_cons_self h₁)
    have hrest := ih (fun t ht => each t (List.mem_cons_of_mem _ ht)) first h
    rwa [List.append_assoc] at hrest

theorem continues_conditional {e : Bool} {lhs rhs onTrue onFalse : Term}
    (each : ∀ t ∈ [lhs, rhs, onTrue, onFalse], c.Continues ls t)
    (hform : formOf? c.extensions o = some (.conditional e))
    (h : (c.apply Γ l (.ext sp o [lhs, rhs, onTrue, onFalse])).result = .ok (Γ', T)) :
    Env.Continues l ls (Term.allDeclares [lhs, rhs, onTrue, onFalse]) Γ Γ' := by
  obtain ⟨⟨Γl, Tl⟩, ⟨Γr, Tr⟩, Γ₁, us, ⟨Γt, Tt⟩, ⟨Γf, Tf⟩, hl, hr, hrel, -, ht, hf, hm⟩ :=
    apply_conditional hform h
  -- both operands are parked and released, and each arm goes on from there
  have first : Env.Holds l ls ([] ++ lhs.declares) Γ (Parked.park l [] (Γl, Tl)) :=
    (Env.Holds.nil Γ).park (each lhs (by simp) hl)
  have second := (first.park (T := Tr) (each rhs (by simp) hr)).goesOn
  cases hrel
  obtain ⟨-, hj, -⟩ := merge_ok hm
  have arms := Env.Continues.join (each onTrue (by simp) ht) (each onFalse (by simp) hf) hj
  have all := second.trans arms
  simpa only [Term.allDeclares, List.nil_append, List.append_nil, List.append_assoc] using all

/-- The blocks of a part are among those of the whole. -/
theorem Continues.among (each : ∀ t ∈ ts, c.Continues t.lifetimes t) :
    ∀ t ∈ ts, c.Continues (Term.allLifetimes ts) t := fun t ht _ _ _ _ h =>
  (each t ht h).mono fun _ hk => Term.mem_allLifetimes.2 ⟨t, ht, hk⟩

/-- **Typing a term continues the environment that it starts from**, up to the lifetimes of the
blocks in it. -/
theorem continues_apply (t : Term) : c.Continues t.lifetimes t := by
  induction t with
  | value s v =>
    intro l Γ Γ' T h
    obtain ⟨-, rfl, -⟩ := apply_value h
    exact .refl _
  | access s k p =>
    intro l Γ Γ' T h
    obtain ⟨s, hs, -, -, ⟨-, rfl⟩ | ⟨-, -, u, hf, rfl⟩⟩ := read_ok (apply_access h)
    · exact .refl _
    · exact .insert hs (Ty.skeleton_replaceAt hf rfl)
  | borrow s m p =>
    intro l Γ Γ' T h
    obtain ⟨rfl, -⟩ := apply_borrow h
    exact .refl _
  | box s t ih =>
    intro l Γ Γ' T h
    obtain ⟨U, h₁, -⟩ := apply_box h
    exact ih h₁
  | letMut s x xs t ih =>
    intro l Γ Γ' T h
    obtain ⟨hx, Γ₁, U, h₁, rfl, -⟩ := apply_letMut h
    exact (ih h₁).declare (NameMap.contains_eq_false_iff.1 hx)
  | assign s p t ih =>
    intro l Γ Γ' T h
    obtain ⟨-, Γ₁, U, -, h₁, ha, -⟩ := apply_assign h
    obtain ⟨-, -, hw⟩ := assign_ok ha
    have := (ih h₁).trans (Env.Continues.of_write hw)
    rwa [List.append_nil] at this
  | block s inner ts ih =>
    intro l Γ Γ' T h
    obtain ⟨Γ₁, h₁, -, rfl⟩ := apply_block h
    exact (continues_sequence (.among ih) h₁).leave
  | ext s o ts ih =>
    intro l Γ Γ' T h
    rcases apply_ext h with hform | ⟨e, lhs, rhs, onTrue, onFalse, hform, rfl⟩
    · obtain ⟨P, hP, rfl, -⟩ := apply_tuple hform h
      exact (holds_park (.among ih) (.nil Γ) hP).goesOn
    · exact continues_conditional (.among ih) hform h

theorem continues_statements (h : (c.sequence Γ l T ts).result = .ok (Γ', U)) :
    Env.Continues l (Term.allLifetimes ts) (Term.allDeclares ts) Γ Γ' :=
  continues_sequence (.among fun t _ => continues_apply t) h

/-- **Typing a term keeps the bindings around it.** If no variable has the lifetime of a block of
the term, all variables stay, with their lifetimes and with types of the same skeleton. What is new
is declared by the term outside of the blocks in it, and has the lifetime that the term is typed
under, so a block brings no variable at all. -/
theorem surroundings_kept (hnew : ∀ x s, Γ.get? x = some s → s.lifetime ∉ t.lifetimes)
    (h : (c.apply Γ l t).result = .ok (Γ', T)) :
    (∀ x s, Γ.get? x = some s → ∃ s', Γ'.get? x = some s' ∧ s'.lifetime = s.lifetime ∧
      s'.ty.skeleton = s.ty.skeleton) ∧
    (∀ x s', Γ'.get? x = some s' → Γ.get? x = none → x ∈ t.declares ∧ s'.lifetime = l) ∧
    ∀ sp inner ts, t = .block sp inner ts → ∀ x, Γ'.contains x = Γ.contains x := by
  have hcont := continues_apply t h
  have kept := fun x s hs => hcont.kept x s hs (hnew x s hs)
  refine ⟨kept, fun x s' hs' hn => ?_, ?_⟩
  · refine (hcont.origin x s' hs').resolve_left ?_
    rintro ⟨s, hs, -⟩
    rw [hn] at hs
    cases hs
  · rintro sp inner ts rfl x
    cases hx : Γ.get? x with
    | none =>
      cases hx' : Γ'.get? x with
      | none => simp [NameMap.contains, hx, hx']
      | some s' =>
        rcases hcont.origin x s' hx' with ⟨s, hs, -⟩ | ⟨hm, -⟩
        · rw [hx] at hs
          cases hs
        · cases hm
    | some s =>
      obtain ⟨s', hs', -⟩ := kept x s hx
      simp [NameMap.contains, hx, hs']

/-- `({ r = &mut z; }, move y, let mut n = 1)`. -/
def pointElsewhere : Term :=
  .ext {} 30 [
    .block {} (.inside 2 (.inside 1 (.root 0)))
      [.assign {} (.var "r") (.borrow {} true (.var "z"))],
    .access {} .move (.var "y"), .letMut {} "n" {} (.value {} (.int 1))]

/-- The variables around `pointElsewhere`. -/
def beforeElsewhere : Env := .declaring (.inside 1 (.root 0))
  [("r", .borrowOf true (.var "x")), ("x", .int), ("y", .box .int), ("z", .int)]

/-- The same variables and a new one, after it. -/
def afterElsewhere : Env := .declaring (.inside 1 (.root 0))
  [("n", .int), ("r", .borrowOf true (.var "z")), ("x", .int), ("y", .shadow (.box .int)),
    ("z", .int)]

theorem surroundings_kept_elsewhere :
    (∀ x s, beforeElsewhere.get? x = some s → s.lifetime ∉ pointElsewhere.lifetimes) ∧
    (Checker.apply { extensions := Extension.all } beforeElsewhere (.inside 1 (.root 0))
      pointElsewhere).result = .ok (afterElsewhere, .compound [.unit, .box .int, .unit]) ∧
    (∀ x s, beforeElsewhere.get? x = some s → ∃ s', afterElsewhere.get? x = some s' ∧
      s'.lifetime = s.lifetime ∧ s'.ty.skeleton = s.ty.skeleton) ∧
    (∀ x s', afterElsewhere.get? x = some s' → beforeElsewhere.get? x = none →
      x ∈ pointElsewhere.declares ∧ s'.lifetime = .inside 1 (.root 0)) ∧
    ∀ sp inner ts, pointElsewhere = .block sp inner ts →
      ∀ x, afterElsewhere.contains x = beforeElsewhere.contains x := by
  have hnew : ∀ x s, beforeElsewhere.get? x = some s →
      s.lifetime ∉ pointElsewhere.lifetimes := by
    have hall : ∀ s ∈ beforeElsewhere.values, s.lifetime ∉ pointElsewhere.lifetimes := by decide
    exact fun x s hs => hall s (NameMap.mem_values hs)
  have happly : (Checker.apply { extensions := Extension.all } beforeElsewhere (.inside 1 (.root 0))
      pointElsewhere).result = .ok (afterElsewhere, .compound [.unit, .box .int, .unit]) := rfl
  exact ⟨hnew, happly, surroundings_kept hnew happly⟩

end Checker

end Ownership
