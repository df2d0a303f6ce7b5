/-!
# Traced computations

A computation that may fail and that records events on the way. The events of a
failed computation are those recorded before the failure. Parts of a computation may
have names, and a failure tells which of them it came from (`within`, `failedIn`).
What a computation records never decides its result: `result_bind` computes results
from results.
-/

namespace Ownership

/-- An error, and the named parts that it was raised in, the outermost first. -/
structure Failure (ε : Type) where
  error : ε
  parts : List String := []

structure Traced (ω ε α : Type) where
  events : List ω
  outcome : Except (Failure ε) α

namespace Traced

variable {ω ε α β : Type}

def result (x : Traced ω ε α) : Except ε α := x.outcome.mapError Failure.error

/-- The named parts of the computation that it failed in, if it failed. -/
def failedIn (x : Traced ω ε α) : List String :=
  match x.outcome with
  | .ok _ => []
  | .error e => e.parts

/-- Runs `f` on the result of `x`, if there is one. -/
def andThen (x : Traced ω ε α) (f : α → Traced ω ε β) : Traced ω ε β :=
  match x.outcome with
  | .ok a => ⟨x.events ++ (f a).events, (f a).outcome⟩
  | .error e => ⟨x.events, .error e⟩

instance : Monad (Traced ω ε) where
  pure a := ⟨[], .ok a⟩
  bind := andThen

instance : MonadExceptOf ε (Traced ω ε) where
  throw e := ⟨[], .error ⟨e, []⟩⟩
  tryCatch x handle :=
    match x.outcome with
    | .ok a => ⟨x.events, .ok a⟩
    | .error e => ⟨x.events ++ (handle e.error).events, (handle e.error).outcome⟩

instance : MonadLift (Except ε) (Traced ω ε) where
  monadLift x := ⟨[], x.mapError fun e => ⟨e, []⟩⟩

/-- Records one event. -/
def note (e : ω) : Traced ω ε Unit := ⟨[e], .ok ()⟩

/-- Records the event that `f` makes of a result. -/
def noteSuccess (f : α → ω) (x : Traced ω ε α) : Traced ω ε α :=
  match x.outcome with
  | .ok a => ⟨x.events ++ [f a], .ok a⟩
  | .error e => ⟨x.events, .error e⟩

/-- Records the event that `f` makes of a failure, and fails all the same. -/
def noteFailure (f : ε → ω) (x : Traced ω ε α) : Traced ω ε α :=
  match x.outcome with
  | .ok a => ⟨x.events, .ok a⟩
  | .error e => ⟨x.events ++ [f e.error], .error e⟩

/-- Makes `x` a named part of a computation. -/
def within (part : String) (x : Traced ω ε α) : Traced ω ε α :=
  ⟨x.events, x.outcome.mapError fun e => ⟨e.error, part :: e.parts⟩⟩

@[simp] theorem result_pure (a : α) : (pure a : Traced ω ε α).result = .ok a := rfl

@[simp] theorem result_throw (e : ε) : (throw e : Traced ω ε α).result = .error e := rfl

@[simp] theorem result_lift (x : Except ε α) : (liftM x : Traced ω ε α).result = x := by
  cases x <;> rfl

@[simp] theorem result_note (e : ω) : (note e : Traced ω ε Unit).result = .ok () := rfl

@[simp] theorem result_bind (x : Traced ω ε α) (f : α → Traced ω ε β) :
    (x >>= f).result = x.result >>= fun a => (f a).result := by
  obtain ⟨es, _ | a⟩ := x <;> rfl

@[simp] theorem outcome_bind (x : Traced ω ε α) (f : α → Traced ω ε β) :
    (x >>= f).outcome = x.outcome >>= fun a => (f a).outcome := by
  obtain ⟨es, _ | a⟩ := x <;> rfl

theorem result_of_outcome {x : Traced ω ε α} {y : Traced ω ε β} {f : α → β}
    (h : y.outcome = x.outcome.map f) : y.result = x.result.map f := by
  obtain ⟨es, _ | a⟩ := x <;> rw [result, h] <;> rfl

/-- Of what follows a computation, only what it does with the result matters. -/
theorem bind_congr_result {x : Traced ω ε α} {f g : α → Traced ω ε β}
    (h : ∀ a, x.result = .ok a → f a = g a) : x >>= f = x >>= g := by
  obtain ⟨es, _ | a⟩ := x
  · rfl
  · show andThen _ f = andThen _ g
    simp only [andThen, h a rfl]

@[simp] theorem ok_bind (a : α) (f : α → Except ε β) : (Except.ok a >>= f) = f a := rfl

@[simp] theorem error_bind (e : ε) (f : α → Except ε β) :
    (Except.error e >>= f) = .error e := rfl

theorem bind_eq_ok {x : Except ε α} {f : α → Except ε β} {b : β} :
    (x >>= f) = .ok b ↔ ∃ a, x = .ok a ∧ f a = .ok b := by
  cases x with
  | error e => exact ⟨nofun, fun ⟨_, h, _⟩ => nomatch h⟩
  | ok a => exact ⟨fun h => ⟨a, rfl, h⟩, fun ⟨_, e, h⟩ => by cases e; exact h⟩

theorem bind_eq_error {x : Except ε α} {f : α → Except ε β} {e : ε} :
    (x >>= f) = .error e ↔ x = .error e ∨ ∃ a, x = .ok a ∧ f a = .error e := by
  cases x with
  | error d => simp
  | ok a => simp

theorem map_eq_ok {x : Except ε α} {f : α → β} {b : β} :
    x.map f = .ok b ↔ ∃ a, x = .ok a ∧ f a = b := by
  cases x <;> simp [Except.map]

/-- A sequence succeeds if both parts of it do. -/
theorem result_bind_ok {x : Traced ω ε α} {f : α → Traced ω ε β} {b : β} :
    (x >>= f).result = .ok b ↔ ∃ a, x.result = .ok a ∧ (f a).result = .ok b := by
  rw [result_bind, bind_eq_ok]

@[simp] theorem result_noteSuccess (f : α → ω) (x : Traced ω ε α) :
    (x.noteSuccess f).result = x.result := by
  obtain ⟨es, _ | a⟩ := x <;> rfl

@[simp] theorem result_noteFailure (f : ε → ω) (x : Traced ω ε α) :
    (x.noteFailure f).result = x.result := by
  obtain ⟨es, _ | a⟩ := x <;> rfl

@[simp] theorem result_within (part : String) (x : Traced ω ε α) :
    (x.within part).result = x.result := by
  obtain ⟨es, _ | a⟩ := x <;> rfl

/-! ### Parts that fail -/

variable {part : String} {x : Traced ω ε α} {f : α → Traced ω ε β}

@[simp] theorem failedIn_pure (a : α) : (pure a : Traced ω ε α).failedIn = [] := rfl

@[simp] theorem failedIn_throw (e : ε) : (throw e : Traced ω ε α).failedIn = [] := rfl

@[simp] theorem failedIn_note (e : ω) : (note e : Traced ω ε Unit).failedIn = [] := rfl

@[simp] theorem failedIn_lift (y : Except ε α) : (liftM y : Traced ω ε α).failedIn = [] := by
  cases y <;> rfl

theorem failedIn_of_outcome {y : Traced ω ε β} {g : α → β} (h : y.outcome = x.outcome.map g) :
    y.failedIn = x.failedIn := by
  obtain ⟨es, _ | a⟩ := x <;> rw [failedIn, h] <;> rfl

/-- A sequence fails in the parts that its first computation fails in, or else in those that the
second one does. -/
theorem mem_failedIn_bind : part ∈ (x >>= f).failedIn ↔
    part ∈ x.failedIn ∨ ∃ a, x.result = .ok a ∧ part ∈ (f a).failedIn := by
  obtain ⟨es, e | a⟩ := x
  · exact ⟨.inl, fun | .inl h => h | .inr ⟨_, h, _⟩ => nomatch h⟩
  · exact ⟨fun h => .inr ⟨a, rfl, h⟩, fun | .inl h => nomatch h | .inr ⟨_, rfl, h⟩ => h⟩

/-- A part fails where it is run and does not succeed. -/
theorem mem_failedIn_within : part ∈ (x.within part).failedIn ↔ ∃ e, x.result = .error e := by
  obtain ⟨es, e | a⟩ := x
  · exact ⟨fun _ => ⟨e.error, rfl⟩, fun _ => List.mem_cons_self⟩
  · exact ⟨nofun, fun ⟨_, h⟩ => nomatch h⟩

end Traced

/-- A result that can be compared as an option. -/
theorem ok_of_toOption {ε α : Type} {x : Except ε α} {a : α} (h : x.toOption = some a) :
    x = .ok a := by
  cases x with
  | error e => cases h
  | ok b =>
    cases h
    rfl

end Ownership
