import Ownership.Term.Basic
import Ownership.Ty.Basic

/-!
# Violations

Why a program is refused. A `Violation` is the rule that was broken and what it was
broken by; a `CheckError` adds where in the text that was.
-/

namespace Ownership

inductive Violation where
  | undeclared (name : String)
  | alreadyDeclared (name : String)
  | moved (place : Place)
  | notCopy (place : Place)
  | readProhibited (place : Place)
  | writeProhibited (place : Place)
  | notReadable (place : Place)
  | notWritable (place : Place)
  | notMutable (place : Place)
  | incompatible (expected found : Ty)
  | notWithin (ty : Ty)
  | moveThroughBorrow (place : Place)
  | expectedReference (place : Place)
  | invalidPath (place : Place)
  | environmentMismatch (name : String)
  | unknownTerm (opcode : Nat)
  | unsupportedTerm (text : String)
  /-- The borrows to follow lead back to themselves. -/
  | endless
  deriving DecidableEq

structure CheckError where
  violation : Violation
  span : Span
  deriving DecidableEq

namespace Violation

def message : Violation → String
  | undeclared x => "variable `" ++ x ++ "` undeclared"
  | alreadyDeclared x => "variable `" ++ x ++ "` already declared"
  | moved p => "use of moved lval `" ++ p.text ++ "`"
  | notCopy p => "type of `" ++ p.text ++ "` cannot be copied"
  | readProhibited p => "`" ++ p.text ++ "` mutably borrowed in part or whole"
  | writeProhibited p => "`" ++ p.text ++ "` borrowed in part or whole"
  | notReadable p => "`" ++ p.text ++ "` cannot be read (moved in part or whole)"
  | notWritable p => "`" ++ p.text ++ "` cannot be written (moved in part or whole)"
  | notMutable p => "`" ++ p.text ++ "` is not mutable along its path"
  | incompatible t u => "incompatible type: expected `" ++ t.text ++ "`, found `" ++ u.text ++ "`"
  | notWithin t => "lifetime of `" ++ t.text ++ "` does not outlive the enclosing scope"
  | moveThroughBorrow p => "cannot move out of `" ++ p.text ++ "` through a borrow"
  | expectedReference p => "expected reference type for `" ++ p.text ++ "`"
  | invalidPath p => "invalid path `" ++ p.text ++ "`"
  | environmentMismatch x =>
    "branches declare different variables or lifetimes for `" ++ x ++ "`"
  | unknownTerm opcode => "no typing rule for extension term #" ++ toString opcode
  | unsupportedTerm s => "`" ++ s ++ "` is not part of the source language"
  | endless => "the borrows to follow lead back to themselves"

end Violation

def CheckError.message (e : CheckError) : String := "borrow check error: " ++ e.violation.message

/-- Lays a violation to the account of the text at `span`. -/
def blame {α : Type} (span : Span) : Except Violation α → Except CheckError α
  | .ok a => .ok a
  | .error v => .error ⟨v, span⟩

end Ownership
