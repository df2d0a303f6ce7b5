/-!
# Values

What the cells of the store hold. A reference is owning when it came from a box:
dropping it frees the cell that it points to. Every other reference is a borrow.

* `Value.references`: the references inside a value, from left to right.
* `Value.containsOwner_iff`: a value owns something exactly if one of them is owning.
-/

namespace Ownership

/-- A location in the store, as an address and the components to pick there. -/
structure Reference where
  address : Nat
  path : List Nat
  owner : Bool
  deriving DecidableEq, Repr

namespace Reference

def owned (address : Nat) : Reference := ⟨address, [], true⟩

def borrowed (address : Nat) : Reference := ⟨address, [], false⟩

/-- The same location, without ownership. -/
def toBorrow (r : Reference) : Reference := ⟨r.address, r.path, false⟩

def index (r : Reference) (i : Nat) : Reference := ⟨r.address, r.path ++ [i], false⟩

def text (r : Reference) : String :=
  (if r.owner then "#" else "&#") ++ toString r.address
    ++ String.join (r.path.map fun i => "." ++ toString i)

end Reference

inductive Value where
  | unit
  | int (n : Int)
  | ref (r : Reference)
  | compound (components : List Value)
  /-- What is left in a location whose value has been moved out. -/
  | undefined

namespace Value

@[elab_as_elim, induction_eliminator]
theorem induction {motive : Value → Prop} (unit : motive .unit) (int : ∀ n, motive (.int n))
    (ref : ∀ r, motive (.ref r)) (compound : ∀ vs, (∀ v ∈ vs, motive v) → motive (.compound vs))
    (undefined : motive .undefined) : ∀ v, motive v :=
  Value.rec (motive_1 := motive) (motive_2 := fun vs => ∀ v ∈ vs, motive v)
    unit int ref compound undefined (fun _ m => absurd m List.not_mem_nil)
    fun _ _ h hs _ m => (List.mem_cons.1 m).elim (fun e => e ▸ h) (hs _)

mutual

def decEq : (a b : Value) → Decidable (a = b)
  | unit, unit | undefined, undefined => isTrue rfl
  | int m, int n => if h : m = n then isTrue (h ▸ rfl) else isFalse fun e => h (int.inj e)
  | ref r, ref s => if h : r = s then isTrue (h ▸ rfl) else isFalse fun e => h (ref.inj e)
  | compound as, compound bs =>
    match decEqAll as bs with
    | isTrue h => isTrue (h ▸ rfl)
    | isFalse h => isFalse fun e => h (compound.inj e)
  | unit, int _ | unit, ref _ | unit, compound _ | unit, undefined
  | int _, unit | int _, ref _ | int _, compound _ | int _, undefined
  | ref _, unit | ref _, int _ | ref _, compound _ | ref _, undefined
  | compound _, unit | compound _, int _ | compound _, ref _ | compound _, undefined
  | undefined, unit | undefined, int _ | undefined, ref _ | undefined, compound _ => isFalse nofun

def decEqAll : (as bs : List Value) → Decidable (as = bs)
  | [], [] => isTrue rfl
  | a :: as, b :: bs =>
    match decEq a b, decEqAll as bs with
    | isTrue h, isTrue hs => isTrue (h ▸ hs ▸ rfl)
    | isFalse h, _ => isFalse fun e => h (List.cons.inj e).1
    | _, isFalse hs => isFalse fun e => hs (List.cons.inj e).2
  | [], _ :: _ | _ :: _, [] => isFalse nofun

end

instance : DecidableEq Value := decEq

mutual

/-- The references inside the value, from left to right, in front of `rest`. -/
def pushReferences : Value → List Reference → List Reference
  | ref r, rest => r :: rest
  | compound vs, rest => pushAllReferences vs rest
  | unit, rest | int _, rest | undefined, rest => rest

def pushAllReferences : List Value → List Reference → List Reference
  | [], rest => rest
  | v :: vs, rest => v.pushReferences (pushAllReferences vs rest)

end

def references (v : Value) : List Reference := v.pushReferences []

mutual

def containsOwner : Value → Bool
  | ref r => r.owner
  | compound vs => anyContainsOwner vs
  | unit | int _ | undefined => false

def anyContainsOwner : List Value → Bool
  | [] => false
  | v :: vs => v.containsOwner || anyContainsOwner vs

end

theorem pushAllReferences_eq_foldr (vs : List Value) (rest : List Reference) :
    pushAllReferences vs rest = vs.foldr pushReferences rest := by
  induction vs with
  | nil => rfl
  | cons v vs ih => simp [pushAllReferences, ih]

theorem pushReferences_eq (v : Value) (rest : List Reference) :
    v.pushReferences rest = v.references ++ rest := by
  induction v generalizing rest with
  | unit => rfl
  | int n => rfl
  | ref r => rfl
  | undefined => rfl
  | compound vs ih =>
    simp only [references, pushReferences, pushAllReferences_eq_foldr]
    induction vs generalizing rest with
    | nil => rfl
    | cons v vs ihs =>
      have hvs : ∀ rest, vs.foldr pushReferences rest = vs.foldr pushReferences [] ++ rest :=
        ihs fun w m => ih w (List.mem_cons_of_mem _ m)
      have hv := ih v List.mem_cons_self
      rw [List.foldr_cons, hv, hvs, List.foldr_cons, hv, List.append_assoc]

theorem references_compound (vs : List Value) :
    (compound vs).references = vs.flatMap references := by
  simp only [references, pushReferences, pushAllReferences_eq_foldr]
  induction vs with
  | nil => rfl
  | cons v vs ih => rw [List.foldr_cons, pushReferences_eq, ih, List.flatMap_cons]

theorem anyContainsOwner_eq (vs : List Value) : anyContainsOwner vs = vs.any containsOwner := by
  induction vs with
  | nil => rfl
  | cons v vs ih => simp [anyContainsOwner, ih]

theorem containsOwner_iff {v : Value} :
    v.containsOwner = true ↔ ∃ r ∈ v.references, r.owner = true := by
  induction v with
  | unit => simp [containsOwner, references, pushReferences]
  | int n => simp [containsOwner, references, pushReferences]
  | ref r => simp [containsOwner, references, pushReferences]
  | compound vs ih =>
    simp only [containsOwner, anyContainsOwner_eq, references_compound, List.any_eq_true,
      List.mem_flatMap]
    constructor
    · rintro ⟨v, m, h⟩
      obtain ⟨r, mr, hr⟩ := (ih v m).1 h
      exact ⟨r, ⟨v, m, mr⟩, hr⟩
    · rintro ⟨r, ⟨v, m, mr⟩, hr⟩
      exact ⟨v, m, (ih v m).2 ⟨r, mr, hr⟩⟩
  | undefined => simp [containsOwner, references, pushReferences]

/-- The addresses that the value owns, from left to right. -/
def owned (v : Value) : List Nat := (v.references.filter (·.owner)).map (·.address)

/-! ### Parts -/

/-- The part of the value that `path` selects. -/
def select? : Value → List Nat → Option Value
  | v, [] => some v
  | compound vs, i :: s => vs[i]?.bind fun v => v.select? s
  | _, _ :: _ => none

/-- The value with `new` in the stead of the part that `path` selects. -/
def replaceAt? : Value → List Nat → Value → Option Value
  | _, [], new => some new
  | compound vs, i :: s, new =>
    vs[i]?.bind fun v => (v.replaceAt? s new).map fun w => compound (vs.set i w)
  | _, _ :: _, _ => none

/-! ### Text -/

mutual

def text : Value → String
  | unit => "()"
  | int n => toString n
  | ref r => r.text
  | compound vs => "(" ++ ", ".intercalate (texts vs) ++ ")"
  | undefined => "⊥"

def texts : List Value → List String
  | [] => []
  | v :: vs => v.text :: texts vs

end

end Value

end Ownership
