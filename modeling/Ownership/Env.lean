import Ownership.Lifetime
import Ownership.NameMap
import Ownership.Ty.Basic

/-!
# Typing environments

What the checker knows about each variable in scope: its current type and the
lifetime that it was declared in.
-/

namespace Ownership

structure Slot where
  ty : Ty
  lifetime : Lifetime
  deriving DecidableEq

abbrev Env := NameMap Slot

namespace Env

/-- Forgets the variables declared in `l`. -/
def dropLifetime (env : Env) (l : Lifetime) : Env := env.filter fun _ s => s.lifetime != l

def temporary (i : Nat) : String := "$tmp" ++ toString i

/-- The first temporary name that is not bound. -/
def freshName (env : Env) : String :=
  (((List.range (env.size + 1)).map temporary).find? fun n => !env.contains n).getD ""

/-- Every place that some variable may point to. -/
def targets (env : Env) : List Place := env.values.flatMap fun s => s.ty.borrowed

/-- The size of all types in the environment. -/
def weight (env : Env) : Nat := env.values.foldl (fun n s => n + s.ty.weight) 0

/-- Some variable holds a mutable borrow of a place that conflicts with `p`. -/
def readProhibited (env : Env) (p : Place) : Bool :=
  env.values.any fun s => s.ty.prohibitsReading p

/-- Some variable holds a borrow of a place that conflicts with `p`. -/
def writeProhibited (env : Env) (p : Place) : Bool :=
  env.values.any fun s => s.ty.prohibitsWriting p

/-- Every variable that `t` borrows from lives at least as long as `l`. -/
def within (env : Env) (t : Ty) (l : Lifetime) : Bool :=
  t.borrowed.all fun p => (env.get? p.name).any fun s => l.within s.lifetime

def text (env : Env) : String :=
  let slot (e : String × Slot) : String :=
    e.1 ++ ":<" ++ e.2.ty.text ++ ", " ++ e.2.lifetime.text ++ ">"
  "\x7b" ++ ",".intercalate (env.entries.map slot) ++ "\x7d"

end Env

end Ownership
