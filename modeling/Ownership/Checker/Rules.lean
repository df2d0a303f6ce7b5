import Ownership.Checker.Join
import Ownership.Checker.Write
import Ownership.Extension
import Ownership.Term.Text
import Ownership.Traced

/-!
# The checker

Types a term in an environment and tells what the environment is afterwards
(`apply`). The environment flows through the term from left to right, so moves and
borrows of earlier parts bear on later ones.

* A declaration adds its variable after its initialiser has been typed.
* A block types its statements under a lifetime of its own. Its result must not borrow from
  the block's variables, which are forgotten at its end.
* An operand of a tuple or of a comparison is parked in a temporary variable while later
  operands are typed, so what it borrows stays borrowed (`Parked`).
-/

namespace Ownership

structure Checker where
  /-- An access that is not annotated copies whenever its type allows. -/
  copyInference : Bool := true
  variance : Variance := .covariant
  extensions : List Extension := []

/-- A term has been typed. -/
structure Typing where
  before : Env
  term : Term
  ty : Ty
  after : Env

def Typing.text (e : Typing) : String :=
  "TRACE fwr::check " ++ e.before.text ++ " |- " ++ e.term.text ++ " : " ++ e.ty.text ++ " -| "
    ++ e.after.text

abbrev Check (α : Type) := Traced Typing CheckError α

/-- Operands typed so far: each has its type under a temporary name in the environment. -/
structure Parked where
  env : Env
  names : List String

namespace Parked

def park (l : Lifetime) (names : List String) (judged : Env × Ty) : Parked :=
  let name := judged.1.freshName
  ⟨judged.1.insert name ⟨judged.2, l.global⟩, names ++ [name]⟩

/-- Gives back the types of the operands and removes their temporaries. -/
def release (p : Parked) : Env × List Ty :=
  (p.env.eraseAll p.names, p.names.filterMap fun n => (p.env.get? n).map (·.ty))

end Parked

namespace Checker

/-- Whether an access of this kind copies a value of type `t` at `p`. -/
def copies (c : Checker) (kind : AccessKind) (p : Place) (t : Ty) : Except Violation Bool :=
  match kind with
  | .copy => if t.copyable then .ok true else .error (.notCopy p)
  | .move => .ok false
  | .inferred => .ok (c.copyInference && t.copyable)

/-- Reads `p`: a copy leaves the environment as it is, a move strikes the place out. -/
def read (c : Checker) (env : Env) (kind : AccessKind) (p : Place) :
    Except Violation (Env × Ty) := do
  let slot ← env.declared p
  require env p false (.moved p)
  let t ← typeOf env p
  if ← c.copies kind p t then
    if env.readProhibited p then throw (.readProhibited p)
    return (env, t)
  require env p true (.moved p)
  if env.writeProhibited p then throw (.writeProhibited p)
  let struck ← strike slot.ty p
  return (env.insert p.name ⟨struck, slot.lifetime⟩, t)

/-- Takes a reference to `p`, a unique one if `mutable` is set. -/
def borrow (env : Env) (mutable : Bool) (p : Place) : Except Violation Ty := do
  let _ ← env.declared p
  require env p false (.notReadable p)
  if mutable then
    require env p true (.notWritable p)
    if env.writeProhibited p then throw (.writeProhibited p)
  else if env.readProhibited p then throw (.readProhibited p)
  return .borrowOf mutable p

/-- Writes a value of type `t` to `p`. The value may not borrow the place that it goes to. -/
def assign (c : Checker) (env : Env) (p : Place) (t : Ty) : Except Violation Env := do
  require env p true (.notWritable p)
  if env.writeProhibited p || t.prohibitsWriting p then throw (.writeProhibited p)
  write c.variance env p t true

/-- Demands that a value of type `t₂` can stand for one of type `t₁`. -/
def expect (c : Checker) (env₁ : Env) (t₁ t₂ : Ty) (env₂ : Env) : Except Violation Unit := do
  if !(← compatible c.variance env₁ t₁ t₂ env₂) then throw (.incompatible t₁ t₂)

/-- Brings the two arms of a conditional together. -/
def merge (c : Checker) (onTrue onFalse : Env × Ty) : Except Violation (Env × Ty) := do
  c.expect onTrue.1 onTrue.2 onFalse.2 onFalse.1
  let env ← join c.variance onTrue.1 onFalse.1
  match onTrue.2.union onFalse.2 with
  | some t => return (env, t)
  | none => throw (.incompatible onTrue.2 onFalse.2)

/-- Compares the types of the two operands of a conditional. -/
def comparable (c : Checker) (env : Env) : List Ty → Except Violation Unit
  | [left, right] => c.expect env left right env
  | _ => .ok ()

mutual

/-- The type of `term` under the lifetime `l`, and the environment after it. Each extension is
offered the term before the rules of the core are, and the first that has a rule for it decides. -/
def apply (c : Checker) (env : Env) (l : Lifetime) (term : Term) : Check (Env × Ty) :=
  let offered := c.extensions.findSome? fun e =>
    match term with
    | .ext span opcode operands =>
      (e.form? opcode).map fun
        | .tuple => do
          let (env, ts) := (← c.park l ⟨env, []⟩ operands).release
          return (env, .compound ts)
        | .conditional _ => c.conditional env l span opcode operands
    | _ => none
  Traced.noteSuccess (fun judged => ⟨env, term, judged.2, judged.1⟩) <| offered.getD <|
    match term with
    | .letMut _ name nameSpan init => do
      if env.contains name then throw ⟨.alreadyDeclared name, nameSpan⟩
      let (env, t) ← c.apply env l init
      return (env.insert name ⟨t, l⟩, .unit)
    | .assign span p source => do
      let _ ← blame span (env.declared p)
      let (env, t) ← c.apply env l source
      let env ← blame span (c.assign env p t)
      return (env, .unit)
    | .block span inner statements => do
      let (env, t) ← c.sequence env inner .unit statements
      if !env.within t l then throw ⟨.notWithin t, span⟩
      return (env.dropLifetime inner, t)
    | .access span kind p => blame span (c.read env kind p)
    | .borrow span mutable p => do
      let t ← blame span (borrow env mutable p)
      return (env, t)
    | .box _ content => do
      let (env, t) ← c.apply env l content
      return (env, .box t)
    | .value _ (.int _) => return (env, .int)
    | .value span v => throw ⟨.unsupportedTerm v.text, span⟩
    | .ext span opcode _ => throw ⟨.unknownTerm opcode, span⟩

/-- Types statements one after the other; the last one gives the type, `t` if there is none. -/
def sequence (c : Checker) (env : Env) (l : Lifetime) (t : Ty) : List Term → Check (Env × Ty)
  | [] => return (env, t)
  | s :: ss => do
    let (env, t) ← c.apply env l s
    c.sequence env l t ss

/-- Types a conditional: its operands are compared, and its arms are brought together. -/
def conditional (c : Checker) (env : Env) (l : Lifetime) (span : Span) (opcode : Nat) :
    List Term → Check (Env × Ty)
  | [lhs, rhs, onTrue, onFalse] => do
    let left ← c.apply env l lhs
    let parked := Parked.park l [] left
    let right ← c.apply parked.env l rhs
    let (env, ts) := (Parked.park l parked.names right).release
    blame span (c.comparable env ts)
    let onTrue ← c.apply env l onTrue
    let onFalse ← c.apply env l onFalse
    blame span (c.merge onTrue onFalse)
  | _ => throw ⟨.unknownTerm opcode, span⟩

/-- Types operands from left to right and parks each of them. -/
def park (c : Checker) (l : Lifetime) (parked : Parked) : List Term → Check Parked
  | [] => return parked
  | t :: ts => do
    let judged ← c.apply parked.env l t
    c.park l (Parked.park l parked.names judged) ts

end

/-- A term of an extension goes the way of its form. -/
theorem apply_form (c : Checker) (env : Env) (l : Lifetime) (span : Span) (opcode : Nat)
    (operands : List Term) : c.apply env l (.ext span opcode operands) =
      Traced.noteSuccess (fun judged => ⟨env, .ext span opcode operands, judged.2, judged.1⟩)
        (match formOf? c.extensions opcode with
        | some .tuple => do
          let (env, ts) := (← c.park l ⟨env, []⟩ operands).release
          return (env, .compound ts)
        | some (.conditional _) => c.conditional env l span opcode operands
        | none => throw ⟨.unknownTerm opcode, span⟩) := by
  rw [apply, offer_form]
  rcases formOf? c.extensions opcode with _ | _ | _ <;> rfl

/-- Types operands from left to right; what an operand borrows stays borrowed while the later
ones are typed. -/
def carry (c : Checker) (env : Env) (l : Lifetime) (operands : List Term) :
    Check (Env × List Ty) := do
  return (← c.park l ⟨env, []⟩ operands).release

/-- The type of a whole program. -/
def checkProgram (c : Checker) (root : Lifetime) (term : Term) : Check Ty := do
  return (← c.apply .empty root term).2

end Checker

/-- The type of a program that uses no extension, under the default rules. -/
def typecheck (root : Lifetime) (term : Term) : Check Ty := Checker.checkProgram {} root term

end Ownership
