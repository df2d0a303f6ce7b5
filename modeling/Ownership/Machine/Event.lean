import Ownership.Machine.Store
import Ownership.Term.Text

/-!
# Events of the machine

What a reduction reports: the rules it used, the cells it freed and how it ended.
-/

namespace Ownership

inductive Event where
  | copied (place : Place) (value : Value)
  | moved (place : Place) (value : Value)
  | borrowed (place : Place) (location : Reference)
  | boxed (address : Nat)
  | declared (name : String) (value : Value)
  | assigned (place : Place) (value old : Value)
  | tupled (size : Nat)
  | branched (left right : Value) (taken : Term)
  | droppedValue (freed : Nat)
  | droppedLifetime (lifetime : Lifetime) (freed : Nat)
  | evaluated (steps : Nat) (result : Value)
  | faulted (fault : Fault) (steps : Nat) (term : Term)
  | heapBroken (fault : Fault) (term : Term)

namespace Event

/-- Rules are reported for tracing, outcomes for debugging. -/
def rule (s : String) : String := "TRACE fwr::machine " ++ s

def outcome (s : String) : String := "DEBUG fwr::machine " ++ s

def text : Event → String
  | copied p v => rule ("R-Copy " ++ p.text ++ " => " ++ v.text)
  | moved p v => rule ("R-Move " ++ p.text ++ " => " ++ v.text)
  | borrowed p r => rule ("R-Borrow " ++ p.text ++ " => " ++ r.text)
  | boxed a => rule ("R-Box #" ++ toString a)
  | declared x v => rule ("R-Declare " ++ x ++ " = " ++ v.text)
  | assigned p v old =>
    rule ("R-Assign " ++ p.text ++ " := " ++ v.text ++ " (drops " ++ old.text ++ ")")
  | tupled n => rule ("R-Tuple " ++ toString n ++ " components")
  | branched v w t =>
    rule ("R-If " ++ v.text ++ (if v = w then " == " else " != ") ++ w.text ++ " => " ++ t.text)
  | droppedValue n => outcome ("dropped value freed=" ++ toString n)
  | droppedLifetime l n =>
    outcome ("dropped lifetime lifetime=" ++ l.text ++ " freed=" ++ toString n)
  | evaluated n v => outcome ("evaluated steps=" ++ toString n ++ " result=" ++ v.text)
  | faulted e n t =>
    outcome ("reduction faulted fault=" ++ e.message ++ " steps=" ++ toString n ++ " term="
      ++ t.text)
  | heapBroken e t => outcome ("heap invariant broken fault=" ++ e.message ++ " term=" ++ t.text)

end Event

end Ownership
