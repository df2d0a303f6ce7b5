import Ownership.Term.Basic

/-!
# The text of a term

A block ends each statement with a semicolon and leaves out its lifetime. An
access is marked `!` for a copy and `move` for a move, and an inferred one is the
bare place. A term of an extension is its opcode applied to its operands.
-/

namespace Ownership.Term

mutual

def text : Term → String
  | letMut _ x _ t => "let mut " ++ x ++ " = " ++ t.text
  | assign _ p t => p.text ++ " = " ++ t.text
  | block _ _ ts => "\x7b " ++ statementsText ts ++ "\x7d"
  | access _ .copy p => "!" ++ p.text
  | access _ .move p => "move " ++ p.text
  | access _ .inferred p => p.text
  | borrow _ m p => (if m then "&mut " else "&") ++ p.text
  | box _ t => "box " ++ t.text
  | value _ v => v.text
  | ext _ opcode ts => "#" ++ toString opcode ++ "(" ++ ", ".intercalate (texts ts) ++ ")"

def statementsText : List Term → String
  | [] => ""
  | t :: ts => t.text ++ "; " ++ statementsText ts

def texts : List Term → List String
  | [] => []
  | t :: ts => t.text :: texts ts

end

end Ownership.Term
