import Ownership.Sorted

/-!
# Maps from names

A finite map from names, kept as its list of entries in ascending order of name.
The list is determined by the look-ups, so two maps that answer alike are equal
(`NameMap.ext_get?`).
-/

namespace Ownership

structure NameMap (α : Type) where
  entries : List (String × α)
  sorted : Sorted Prod.fst entries
  deriving DecidableEq

namespace NameMap

variable {α : Type}

def empty : NameMap α := ⟨[], List.Pairwise.nil⟩

def get? (m : NameMap α) (name : String) : Option α := m.entries.lookup name

def contains (m : NameMap α) (name : String) : Bool := (m.get? name).isSome

/-- Binds `name`, in the stead of an earlier binding of it. -/
def insert (m : NameMap α) (name : String) (a : α) : NameMap α :=
  ⟨Sorted.insert Prod.fst (name, a) m.entries, Sorted.insert_sorted m.sorted _⟩

/-- The bindings that satisfy `keep`. -/
def filter (m : NameMap α) (keep : String → α → Bool) : NameMap α :=
  ⟨m.entries.filter fun e => keep e.1 e.2, List.Pairwise.filter _ m.sorted⟩

def erase (m : NameMap α) (name : String) : NameMap α := m.filter fun n _ => n != name

def eraseAll (m : NameMap α) (names : List String) : NameMap α := names.foldl erase m

/-- The later of two entries of one name counts. -/
def ofList (entries : List (String × α)) : NameMap α :=
  entries.foldl (fun m e => m.insert e.1 e.2) empty

def size (m : NameMap α) : Nat := m.entries.length

def isEmpty (m : NameMap α) : Bool := m.entries.isEmpty

def names (m : NameMap α) : List String := m.entries.map Prod.fst

def values (m : NameMap α) : List α := m.entries.map Prod.snd

/-! ### Look-ups -/

theorem lookup_eq_some_iff {l : List (String × α)} (h : Sorted Prod.fst l) {n : String} {a : α} :
    l.lookup n = some a ↔ (n, a) ∈ l := by
  induction l with
  | nil => simp
  | cons e l ih =>
    obtain ⟨k, b⟩ := e
    obtain ⟨hk, hl⟩ := List.pairwise_cons.1 h
    by_cases c : n = k
    · subst c
      simp only [List.lookup_cons, beq_self_eq_true, List.mem_cons, Prod.mk.injEq, true_and]
      constructor
      · intro e; exact .inl (Option.some.inj e).symm
      · rintro (e | m)
        · rw [e]
        · exact absurd (hk _ m) Std.lt_irrefl
    · have e : (n == k) = false := by simp [c]
      simp [List.lookup_cons, e, c, ih hl]

theorem mem_entries_iff {m : NameMap α} {n : String} {a : α} :
    (n, a) ∈ m.entries ↔ m.get? n = some a :=
  (lookup_eq_some_iff m.sorted).symm

/-- A map is determined by its look-ups. -/
theorem ext_get? {m k : NameMap α} (h : ∀ n, m.get? n = k.get? n) : m = k := by
  have e := Sorted.eq_of_mem_iff m.sorted k.sorted fun ⟨n, a⟩ => by
    rw [mem_entries_iff, mem_entries_iff, h]
  cases m; cases k; cases e; rfl

@[simp] theorem get?_empty (n : String) : (empty : NameMap α).get? n = none := rfl

theorem get?_insert (m : NameMap α) (n k : String) (a : α) :
    (m.insert n a).get? k = if k = n then some a else m.get? k := by
  refine Option.ext fun b => ?_
  rw [← mem_entries_iff, insert, Sorted.mem_insert m.sorted, Prod.mk.injEq, mem_entries_iff]
  by_cases c : k = n <;> simp [c, eq_comm]

@[simp] theorem get?_insert_self (m : NameMap α) (n : String) (a : α) :
    (m.insert n a).get? n = some a := by simp [get?_insert]

theorem get?_filter (m : NameMap α) (keep : String → α → Bool) (n : String) :
    (m.filter keep).get? n = (m.get? n).filter (keep n) := by
  refine Option.ext fun b => ?_
  rw [← mem_entries_iff]
  simp [filter, mem_entries_iff, Option.filter_eq_some_iff]

theorem get?_erase (m : NameMap α) (n k : String) :
    (m.erase n).get? k = if k = n then none else m.get? k := by
  rw [erase, get?_filter]
  by_cases c : k = n
  · simp [c, Option.filter]
    cases m.get? n <;> rfl
  · simp only [c, if_false, Option.filter]
    cases m.get? k <;> simp [c]

theorem get?_eraseAll (m : NameMap α) (ns : List String) (k : String) :
    (m.eraseAll ns).get? k = if k ∈ ns then none else m.get? k := by
  induction ns generalizing m with
  | nil => simp [eraseAll]
  | cons n ns ih =>
    rw [show m.eraseAll (n :: ns) = (m.erase n).eraseAll ns from rfl, ih, get?_erase]
    by_cases c : k = n <;> simp [c]

theorem contains_eq_true_iff {m : NameMap α} {n : String} : m.contains n = true ↔ n ∈ m.names := by
  rw [contains, Option.isSome_iff_exists]
  simp [names, mem_entries_iff]

end NameMap

end Ownership
