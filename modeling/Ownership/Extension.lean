/-!
# Extensions of the language

An extension owns some opcodes and gives the terms that carry them a form. The
checker and the machine offer each term to their extensions in order, and turn to
the rules of the core for what none of them takes (`offer_none`, `offer_form`).
-/

namespace Ownership

/-- What a term of an extension stands for. -/
inductive Form where
  /-- All operands, put together. -/
  | tuple
  /-- Compares two operands and goes on with one of two arms: the first if they are equal,
  or unequal where `equal` is false. -/
  | conditional (equal : Bool)
  deriving DecidableEq, Repr

def Form.opcode : Form → Nat
  | tuple => 30
  | conditional true => 40
  | conditional false => 41

inductive Extension where
  | tuples
  | controlFlow
  deriving DecidableEq, Repr

namespace Extension

def name : Extension → String
  | tuples => "tuples"
  | controlFlow => "control-flow"

def forms : Extension → List Form
  | tuples => [.tuple]
  | controlFlow => [.conditional true, .conditional false]

/-- Every extension, in the order in which they are registered by default. -/
def all : List Extension := [tuples, controlFlow]

def form? (e : Extension) (opcode : Nat) : Option Form := e.forms.find? (·.opcode == opcode)

end Extension

/-- The form of the terms with this opcode, as the first extension that owns it says. -/
def formOf? (extensions : List Extension) (opcode : Nat) : Option Form :=
  extensions.findSome? (·.form? opcode)

section

variable {α : Type} (es : List Extension)

/-- What no extension has a rule for is left to the core. -/
@[simp] theorem offer_none (core : α) :
    (es.findSome? fun _ => (none : Option α)).getD core = core := by
  rw [List.findSome?_eq_none_iff.2 fun _ _ => rfl, Option.getD_none]

/-- A term of an extension goes the way of its form. -/
theorem offer_form (opcode : Nat) (rule : Form → α) (core : α) :
    (es.findSome? fun e => (e.form? opcode).map rule).getD core =
      ((formOf? es opcode).map rule).getD core := by
  rw [formOf?, List.map_findSome?]
  rfl

end

end Ownership
