import Ownership.Checker.Compatible

/-!
# Joining environments

After a conditional either arm may have run, so every variable gets the union of
its types after the two arms. The arms must leave the same variables behind.
-/

namespace Ownership

/-- The slot of a variable that has the slots `left` and `right` after the two arms. -/
def joinSlot (variance : Variance) (lhs rhs : Env) (name : String) (left right : Slot) :
    Except Violation Slot := do
  if left.lifetime ≠ right.lifetime then throw (.environmentMismatch name)
  if !(← compatible variance lhs left.ty right.ty rhs) then
    throw (.incompatible left.ty right.ty)
  match left.ty.union right.ty with
  | some t => return ⟨t, left.lifetime⟩
  | none => throw (.incompatible left.ty right.ty)

/-- A variable of one environment that the other one lacks. -/
def strayName (lhs rhs : Env) : String :=
  ((lhs.names.find? fun x => !rhs.contains x).or (rhs.names.find? fun x => !lhs.contains x)).getD ""

def join (variance : Variance) (lhs rhs : Env) : Except Violation Env := do
  if lhs.size ≠ rhs.size then throw (.environmentMismatch (strayName lhs rhs))
  lhs.entries.foldlM (fun out (name, left) => do
    match rhs.get? name with
    | none => throw (.environmentMismatch name)
    | some right => return out.insert name (← joinSlot variance lhs rhs name left right)) lhs

end Ownership
