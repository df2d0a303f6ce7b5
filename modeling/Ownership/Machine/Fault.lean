/-!
# Faults

The ways in which a reduction can go wrong. A fault names what it was about: a
variable, an address, or the text of a value or term.
-/

namespace Ownership

inductive Fault where
  | unboundVariable (name : String)
  | invalidAddress (address : Nat)
  | danglingReference (address : Nat)
  | ownershipInvariant (address owners : Nat)
  | expectedReference (found : String)
  | invalidPath (address : Nat)
  | undefinedRead (address : Nat)
  | stuck (text : String)
  /-- The number of steps that was set for a reduction has been used up. -/
  | unfinished
  deriving DecidableEq, Repr

namespace Fault

def message : Fault → String
  | unboundVariable x => "variable `" ++ x ++ "` is not bound in the current frame"
  | invalidAddress a => "address " ++ toString a ++ " was never allocated"
  | danglingReference a => "dangling reference to freed address " ++ toString a
  | ownershipInvariant a n => "cell " ++ toString a ++ " has " ++ toString n ++ " owning references"
  | expectedReference s => "expected a reference, found `" ++ s ++ "`"
  | invalidPath a => "path does not fit the value stored at address " ++ toString a
  | undefinedRead a => "read of moved-out contents at address " ++ toString a
  | stuck s => "no reduction rule applies to `" ++ s ++ "`"
  | unfinished => "reduction did not finish"

/-- The class of the fault. -/
def code : Fault → String
  | unboundVariable _ => "fwr::fault::unbound"
  | invalidAddress _ => "fwr::fault::address"
  | danglingReference _ => "fwr::fault::dangling"
  | ownershipInvariant .. => "fwr::fault::ownership"
  | expectedReference _ => "fwr::fault::reference"
  | invalidPath _ => "fwr::fault::path"
  | undefinedRead _ => "fwr::fault::undefined"
  | stuck _ => "fwr::fault::stuck"
  | unfinished => "fwr::fault::unfinished"

end Fault

end Ownership
