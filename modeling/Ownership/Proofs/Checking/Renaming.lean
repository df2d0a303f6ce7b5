import Ownership.Term.Parts
import Ownership.Ty.Path
import Ownership.Ty.Union

/-!
# Renaming variables

Every name in a place, a type or a term is replaced by another one. Nothing else changes: a renamed
place has the same path, and the rest of a term stays as it is.

* `Place.conflicts_rename`: **places conflict if they do after a renaming**, if different variables
  get different names.
* `Ty.follow_rename`, `Ty.union_rename`: walks and unions of renamed types are renamed walks and
  unions.
-/

namespace Ownership

variable {f g : String → String} {p q : Place} {ps : PlaceSet} {t : Term} {T : Ty}

namespace Place

/-- The same path into another variable. -/
def rename (f : String → String) (p : Place) : Place := ⟨f p.name, p.path⟩

@[simp] theorem name_rename (f : String → String) (p : Place) : (p.rename f).name = f p.name := rfl

@[simp] theorem path_rename (f : String → String) (p : Place) : (p.rename f).path = p.path := rfl

@[simp] theorem rename_id (p : Place) : p.rename id = p := rfl

theorem rename_extend (f : String → String) (p : Place) (s : List Selector) :
    (p.extend s).rename f = (p.rename f).extend s := rfl

/-- **Places conflict if they do after a renaming.** -/
theorem conflicts_rename (hf : Function.Injective f) (p q : Place) :
    (p.rename f).conflicts (q.rename f) = p.conflicts q := by
  rw [conflicts, conflicts, Bool.eq_iff_iff]
  simp [hf.eq_iff]

end Place

namespace PlaceSet

def rename (f : String → String) (ps : PlaceSet) : PlaceSet := ofList (ps.toList.map (·.rename f))

theorem mem_rename : p ∈ ps.rename f ↔ ∃ q ∈ ps, q.rename f = p := by
  rw [rename, mem_ofList, List.mem_map]
  rfl

theorem rename_id (ps : PlaceSet) : ps.rename id = ps :=
  ext_mem fun p => by simp [mem_rename]

theorem rename_rename (f g : String → String) (ps : PlaceSet) :
    (ps.rename f).rename g = ps.rename (g ∘ f) :=
  ext_mem fun p => by
    simp only [mem_rename]
    constructor
    · rintro ⟨_, ⟨q, hq, rfl⟩, rfl⟩
      exact ⟨q, hq, rfl⟩
    · rintro ⟨q, hq, rfl⟩
      exact ⟨_, ⟨q, hq, rfl⟩, rfl⟩

theorem any_rename (f : String → String) (ps : PlaceSet) (F : Place → Bool) :
    (ps.rename f).toList.any F = ps.toList.any fun p => F (p.rename f) := by
  rw [Bool.eq_iff_iff, List.any_eq_true, List.any_eq_true]
  constructor
  · rintro ⟨p, hp, h⟩
    obtain ⟨q, hq, rfl⟩ := mem_rename.1 hp
    exact ⟨q, hq, h⟩
  · rintro ⟨q, hq, h⟩
    exact ⟨q.rename f, mem_rename.2 ⟨q, hq, rfl⟩, h⟩

theorem rename_union (f : String → String) (ps qs : PlaceSet) :
    (ps ∪ qs).rename f = ps.rename f ∪ qs.rename f :=
  ext_mem fun p => by
    simp only [mem_rename, mem_union, or_and_right, exists_or]

theorem rename_congr (h : ∀ p ∈ ps, f p.name = g p.name) : ps.rename f = ps.rename g :=
  ext_mem fun p => by
    simp only [mem_rename]
    refine exists_congr fun q => and_congr_right fun hq => ?_
    rw [Place.rename, Place.rename, h q hq]

end PlaceSet

namespace Ty

mutual

/-- The type with the variables renamed that it borrows from. -/
def rename (f : String → String) : Ty → Ty
  | unit => unit
  | int => int
  | box t => box (t.rename f)
  | borrow m ps => borrow m (ps.rename f)
  | shadow t => shadow (t.rename f)
  | compound ts => compound (renameAll f ts)

def renameAll (f : String → String) : List Ty → List Ty
  | [] => []
  | t :: ts => t.rename f :: renameAll f ts

end

theorem renameAll_eq (f : String → String) (ts : List Ty) : renameAll f ts = ts.map (rename f) := by
  induction ts with
  | nil => rfl
  | cons t ts ih => rw [renameAll, ih, List.map_cons]

theorem rename_compound (f : String → String) (ts : List Ty) :
    (compound ts).rename f = compound (ts.map (rename f)) := by rw [rename, renameAll_eq]

theorem rename_id (T : Ty) : T.rename id = T := by
  induction T with
  | unit => rfl
  | int => rfl
  | box t ih => rw [rename, ih]
  | borrow m ps => rw [rename, PlaceSet.rename_id]
  | shadow t ih => rw [rename, ih]
  | compound ts ih =>
    rw [rename_compound, List.map_congr_left ih, List.map_id']

theorem rename_rename (f g : String → String) (T : Ty) :
    (T.rename f).rename g = T.rename (g ∘ f) := by
  induction T with
  | unit => rfl
  | int => rfl
  | box t ih => rw [rename, rename, rename, ih]
  | borrow m ps => rw [rename, rename, rename, PlaceSet.rename_rename]
  | shadow t ih => rw [rename, rename, rename, ih]
  | compound ts ih =>
    rw [rename_compound, rename_compound, rename_compound, List.map_map]
    exact congrArg compound (List.map_congr_left ih)

theorem defined_rename (f : String → String) (T : Ty) : (T.rename f).defined = T.defined := by
  induction T with
  | box t ih =>
    rw [rename, defined, defined]
    exact ih
  | compound ts ih =>
    rw [rename_compound, defined, defined, allDefined_eq, allDefined_eq, List.all_map,
      Bool.eq_iff_iff, List.all_eq_true, List.all_eq_true]
    exact forall₂_congr fun t ht => by rw [Function.comp_apply, ih t ht]
  | _ => rfl

theorem copyable_rename (f : String → String) (T : Ty) : (T.rename f).copyable = T.copyable := by
  induction T with
  | compound ts ih =>
    rw [rename_compound, copyable, copyable, allCopyable_eq, allCopyable_eq, List.all_map,
      Bool.eq_iff_iff, List.all_eq_true, List.all_eq_true]
    exact forall₂_congr fun t ht => by rw [Function.comp_apply, ih t ht]
  | _ => rfl

theorem borrows_rename (f : String → String) (T : Ty) :
    (T.rename f).borrows = T.borrows.map fun b => (b.1, b.2.rename f) := by
  induction T with
  | unit => rfl
  | int => rfl
  | box t ih => exact ih
  | borrow m ps => rfl
  | shadow t ih => exact ih
  | compound ts ih =>
    rw [rename_compound, borrows, borrows, allBorrows_eq, allBorrows_eq, List.flatMap_map,
      List.map_flatMap, List.flatMap_def, List.flatMap_def, List.map_congr_left ih]

/-- **A renamed type prohibits the same**, if different variables get different names. -/
theorem prohibitsReading_rename (hf : Function.Injective f) (T : Ty) (p : Place) :
    (T.rename f).prohibitsReading (p.rename f) = T.prohibitsReading p := by
  simp only [prohibitsReading, borrows_rename, List.any_map, Function.comp_def,
    PlaceSet.any_rename, Place.conflicts_rename hf]

theorem prohibitsWriting_rename (hf : Function.Injective f) (T : Ty) (p : Place) :
    (T.rename f).prohibitsWriting (p.rename f) = T.prohibitsWriting p := by
  simp only [prohibitsWriting, borrows_rename, List.any_map, Function.comp_def,
    PlaceSet.any_rename, Place.conflicts_rename hf]

theorem rename_borrowOf (f : String → String) (m : Bool) (p : Place) :
    (borrowOf m p).rename f = borrowOf m (p.rename f) :=
  congrArg (borrow m) (PlaceSet.ext_mem fun q => by
    simp [PlaceSet.mem_rename, eq_comm])

end Ty

/-- The same walk in a renamed type. -/
def Walk.rename (f : String → String) : Walk → Walk
  | reached t => reached (t.rename f)
  | crossed m ps rest => crossed m (ps.rename f) rest
  | shadowed => shadowed
  | notReference => notReference
  | misfit => misfit

namespace Ty

variable {F F' : Ty → Option Ty}

/-- **A path leads to the same part of a renamed type.** -/
theorem follow_rename (f : String → String) (T : Ty) (s : List Selector) :
    (T.rename f).follow s = (T.follow s).rename f := by
  induction s generalizing T with
  | nil => cases T <;> rfl
  | cons a s ih =>
    cases T with
    | box t =>
      cases a with
      | deref => exact ih t
      | index i => rfl
    | compound ts =>
      cases a with
      | deref => rfl
      | index i =>
        rw [rename_compound]
        simp only [follow, List.getElem?_map]
        cases ts[i]? with
        | none => rfl
        | some t => exact ih t
    | _ => cases a <;> rfl

theorem replaceAt_rename (f : String → String) (T new : Ty) (s : List Selector) :
    (T.replaceAt s new).rename f = (T.rename f).replaceAt s (new.rename f) := by
  induction s generalizing T with
  | nil => cases T <;> rfl
  | cons a s ih =>
    cases T with
    | box t =>
      cases a with
      | deref => exact congrArg box (ih t)
      | index i => rfl
    | compound ts =>
      cases a with
      | deref => rfl
      | index i =>
        rw [rename_compound]
        simp only [replaceAt, rename_compound]
        refine congrArg compound (List.ext_getElem? fun j => ?_)
        simp only [List.getElem?_map, List.getElem?_modify]
        cases ts[j]? with
        | none => rfl
        | some t =>
          simp only [Option.map_eq_map, Option.map_some, Option.some.injEq]
          split
          · exact ih t
          · rfl
    | _ => cases a <;> rfl

theorem peel_rename (f : String → String) (T : Ty) : (T.rename f).peel = T.peel.rename f := by
  cases T <;> rfl

theorem beneath_rename {f : String → String} (hF : ∀ T, F' (T.rename f) = (F T).map (rename f))
    (T : Ty) : (T.rename f).beneath F' = (T.beneath F).map (rename f) := by
  induction T with
  | shadow t ih =>
    rw [rename, beneath, beneath, ih, Option.map_map, Option.map_map]
    rfl
  | unit => exact hF .unit
  | int => exact hF .int
  | box t => exact hF (.box t)
  | borrow m ps => exact hF (.borrow m ps)
  | compound ts => exact hF (.compound ts)

/-- **The union of renamed types is the union of the types, renamed.** -/
theorem union_rename (f : String → String) (a b : Ty) :
    (a.rename f).union (b.rename f) = (a.union b).map (rename f) := by
  induction a generalizing b with
  | shadow a ih =>
    rw [rename, union, union, peel_rename, ih, Option.map_map, Option.map_map]
    rfl
  | unit =>
    rw [rename, union, union]
    exact beneath_rename (fun c => by cases c <;> rfl) b
  | int =>
    rw [rename, union, union]
    exact beneath_rename (fun c => by cases c <;> rfl) b
  | box a ih =>
    rw [rename, union, union]
    refine beneath_rename (fun c => ?_) b
    cases c with
    | box c =>
      simp only [rename, ih, Option.map_map]
      rfl
    | _ => rfl
  | borrow m ps =>
    rw [rename, union, union]
    refine beneath_rename (fun c => ?_) b
    cases c with
    | borrow n qs =>
      simp only [rename]
      split
      · rw [Option.map_some, rename, PlaceSet.rename_union]
      · rfl
    | _ => rfl
  | compound as ih =>
    rw [rename_compound, union, union]
    refine beneath_rename (fun c => ?_) b
    cases c with
    | compound bs =>
      have all : unionAll (as.map (rename f)) (bs.map (rename f)) =
          (unionAll as bs).map (List.map (rename f)) := by
        induction as generalizing bs with
        | nil => cases bs <;> rfl
        | cons a as ihs =>
          cases bs with
          | nil => rfl
          | cons b bs =>
            simp only [List.map_cons, unionAll, ih a List.mem_cons_self,
              ihs (fun c hc => ih c (List.mem_cons_of_mem _ hc))]
            cases a.union b <;> cases unionAll as bs <;> rfl
      rw [rename_compound]
      simp only [all, Option.map_map]
      refine congrArg (Option.map · _) (funext fun ts => ?_)
      rw [Function.comp_apply, Function.comp_apply, rename_compound]
    | _ => rfl

end Ty

namespace Term

mutual

/-- The term with all variables renamed. -/
def rename (f : String → String) : Term → Term
  | letMut s x xs t => letMut s (f x) xs (t.rename f)
  | assign s p t => assign s (p.rename f) (t.rename f)
  | block s l ts => block s l (renameAll f ts)
  | access s k p => access s k (p.rename f)
  | borrow s m p => borrow s m (p.rename f)
  | box s t => box s (t.rename f)
  | value s v => value s v
  | ext s o ts => ext s o (renameAll f ts)

def renameAll (f : String → String) : List Term → List Term
  | [] => []
  | t :: ts => t.rename f :: renameAll f ts

end

theorem renameAll_eq (f : String → String) (ts : List Term) :
    renameAll f ts = ts.map (rename f) := by
  induction ts with
  | nil => rfl
  | cons t ts ih => rw [renameAll, ih, List.map_cons]

theorem rename_block (f : String → String) (s : Span) (l : Lifetime) (ts : List Term) :
    (block s l ts).rename f = block s l (ts.map (rename f)) := by rw [rename, renameAll_eq]

theorem rename_ext (f : String → String) (s : Span) (o : Nat) (ts : List Term) :
    (ext s o ts).rename f = ext s o (ts.map (rename f)) := by rw [rename, renameAll_eq]

/-- Only names that are in the term matter. -/
theorem rename_congr (h : ∀ x ∈ t.names, f x = g x) : t.rename f = t.rename g := by
  have place : ∀ {p : Place}, f p.name = g p.name → p.rename f = p.rename g := by
    intro p hp
    rw [Place.rename, Place.rename, hp]
  induction t with
  | letMut s x xs t ih =>
    rw [rename, rename, h x List.mem_cons_self, ih fun y hy => h y (List.mem_cons_of_mem _ hy)]
  | assign s p t ih =>
    rw [rename, rename, place (h p.name List.mem_cons_self),
      ih fun y hy => h y (List.mem_cons_of_mem _ hy)]
  | block s l ts ih =>
    rw [rename_block, rename_block]
    exact congrArg (block s l) (List.map_congr_left fun t ht =>
      ih t ht fun x hx => h x (mem_allNames.2 ⟨t, ht, hx⟩))
  | access s k p => rw [rename, rename, place (h p.name List.mem_cons_self)]
  | borrow s m p => rw [rename, rename, place (h p.name List.mem_cons_self)]
  | box s t ih => rw [rename, rename, ih h]
  | value s v => rfl
  | ext s o ts ih =>
    rw [rename_ext, rename_ext]
    exact congrArg (ext s o) (List.map_congr_left fun t ht =>
      ih t ht fun x hx => h x (mem_allNames.2 ⟨t, ht, hx⟩))

theorem rename_rename (f g : String → String) (t : Term) :
    (t.rename f).rename g = t.rename (g ∘ f) := by
  induction t with
  | letMut s x xs t ih => rw [rename, rename, rename, ih, Function.comp_apply]
  | assign s p t ih =>
    rw [rename, rename, rename, ih]
    rfl
  | block s l ts ih =>
    rw [rename_block, rename_block, rename_block, List.map_map]
    exact congrArg (block s l) (List.map_congr_left ih)
  | access s k p => rfl
  | borrow s m p => rfl
  | box s t ih => rw [rename, rename, rename, ih]
  | value s v => rfl
  | ext s o ts ih =>
    rw [rename_ext, rename_ext, rename_ext, List.map_map]
    exact congrArg (ext s o) (List.map_congr_left ih)

theorem rename_id (t : Term) : t.rename id = t := by
  induction t with
  | letMut s x xs t ih => rw [rename, ih, id]
  | assign s p t ih => rw [rename, ih, Place.rename_id]
  | block s l ts ih => rw [rename_block, List.map_congr_left ih, List.map_id']
  | access s k p => rfl
  | borrow s m p => rfl
  | box s t ih => rw [rename, ih]
  | value s v => rfl
  | ext s o ts ih => rw [rename_ext, List.map_congr_left ih, List.map_id']

/-- The names in a renamed term are those of the term, renamed. -/
theorem names_rename (f : String → String) (t : Term) : (t.rename f).names = t.names.map f := by
  have all : ∀ ts : List Term, (∀ t ∈ ts, (t.rename f).names = t.names.map f) →
      allNames (ts.map (rename f)) = (allNames ts).map f := by
    intro ts each
    induction ts with
    | nil => rfl
    | cons t ts ih =>
      rw [List.map_cons, allNames, allNames, List.map_append, each t List.mem_cons_self,
        ih fun t ht => each t (List.mem_cons_of_mem _ ht)]
  induction t with
  | letMut s x xs t ih => rw [rename, names, names, ih, List.map_cons]
  | assign s p t ih =>
    rw [rename, names, names, ih, List.map_cons]
    rfl
  | block s l ts ih =>
    rw [rename_block, names, names]
    exact all ts ih
  | access s k p => rfl
  | borrow s m p => rfl
  | box s t ih =>
    rw [rename, names, names]
    exact ih
  | value s v => rfl
  | ext s o ts ih =>
    rw [rename_ext, names, names]
    exact all ts ih

end Term

end Ownership
