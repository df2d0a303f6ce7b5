import Ownership.Checker.Compatible

/-!
# Writing to a place

What an assignment does to the environment. Where the place is reached without
crossing a borrow the write is strong: the new type replaces the old one. Through
a mutable borrow any of the targets may be hit, so each of them is written weakly:
it gets the union of its old type and the new one.
-/

namespace Ownership

/-- Writes through fewer than `n` mutable borrows in a row. -/
def writeUpTo (variance : Variance) (ty : Ty) : Nat → Bool → Env → Place → Except Violation Env
  | 0, _, _, _ => .error .endless
  | n + 1, strong, env, p => do
    let slot ← env.declared p
    if !env.within ty slot.lifetime then throw (.notWithin ty)
    let current ← typeOf env p
    if !(← compatible variance env current ty env) then throw (.incompatible current ty)
    match slot.ty.follow p.path with
    | .reached old =>
      if strong then return env.insert p.name ⟨slot.ty.replaceAt p.path ty, slot.lifetime⟩
      match old.union ty with
      | some new => return env.insert p.name ⟨slot.ty.replaceAt p.path new, slot.lifetime⟩
      | none => throw (.incompatible old ty)
    | .crossed false _ _ => throw (.notMutable p)
    | .crossed true targets rest =>
      let env ← (targets.toList.map (·.extend rest)).foldlM (writeUpTo variance ty n false) env
      return env.insert p.name slot
    | .shadowed => throw (.notWritable p)
    | .notReference | .misfit => throw (.invalidPath p)

/-- The environment after a value of type `ty` has been written to `p`. -/
def write (variance : Variance) (env : Env) (p : Place) (ty : Ty) (strong : Bool) :
    Except Violation Env :=
  let weight := env.weight + ty.weight
  let targets := env.targets.length + ty.borrowed.length
  writeUpTo variance ty (crossings weight targets p) strong env p

end Ownership
