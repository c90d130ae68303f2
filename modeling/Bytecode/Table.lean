/-!
# Finite tables

A table maps finitely many keys to values. It is a list of entries in which no key occurs twice, newest entry last,
so a table computes by plain recursion on its entries. Everything else in the library looks at a table through
`find?`, and the lemmas below say what each operation does to that view and to the number of keys.
-/

namespace Bytecode

structure Table (κ ν : Type) where
  entries : List (κ × ν)
  distinct : (entries.map (·.1)).Nodup
deriving DecidableEq

namespace Table

variable {κ ν : Type} [DecidableEq κ]

def empty : Table κ ν :=
  ⟨[], List.nodup_nil⟩

instance : Inhabited (Table κ ν) :=
  ⟨empty⟩

instance : EmptyCollection (Table κ ν) :=
  ⟨empty⟩

def size (table : Table κ ν) : Nat :=
  table.entries.length

def isEmpty (table : Table κ ν) : Bool :=
  table.entries.isEmpty

def keys (table : Table κ ν) : List κ :=
  table.entries.map (·.1)

def find? (table : Table κ ν) (key : κ) : Option ν :=
  (table.entries.find? (·.1 = key)).map (·.2)

def contains (table : Table κ ν) (key : κ) : Bool :=
  table.entries.any (·.1 = key)

def erase (table : Table κ ν) (key : κ) : Table κ ν :=
  ⟨table.entries.filter (·.1 ≠ key), table.distinct.sublist (List.filter_sublist.map _)⟩

/-- Forgets what the key stood for and records the new value. -/
def insert (table : Table κ ν) (key : κ) (value : ν) : Table κ ν :=
  ⟨(table.erase key).entries ++ [(key, value)], by
    rw [List.map_append, List.nodup_append]
    refine ⟨(table.erase key).distinct, by simp, ?_⟩
    intro left hleft right hright
    simp only [List.map_cons, List.map_nil, List.mem_singleton] at hright
    obtain ⟨entry, hentry, rfl⟩ := List.mem_map.1 hleft
    have hne : entry.1 ≠ key := by simpa using (List.mem_filter.1 hentry).2
    exact hright ▸ hne⟩

/-- A later pair overrides an earlier one of the same key. -/
def ofList (pairs : List (κ × ν)) : Table κ ν :=
  pairs.foldl (fun table pair => table.insert pair.1 pair.2) empty

/-! ### The view `find?` -/

@[simp] theorem find?_empty (key : κ) : (empty : Table κ ν).find? key = none := rfl

private theorem find?_filter_ne_self (entries : List (κ × ν)) (key : κ) :
    (entries.filter (·.1 ≠ key)).find? (·.1 = key) = none := by
  simp [List.find?_eq_none]

private theorem find?_filter_ne (entries : List (κ × ν)) {key other : κ} (hne : other ≠ key) :
    (entries.filter (·.1 ≠ key)).find? (·.1 = other) = entries.find? (·.1 = other) := by
  induction entries with
  | nil => rfl
  | cons entry rest ih =>
    by_cases hother : entry.1 = other
    · simp [hother, hne]
    · by_cases hkey : entry.1 = key <;> simp_all

theorem find?_erase (table : Table κ ν) (key other : κ) :
    (table.erase key).find? other = if other = key then none else table.find? other := by
  unfold find? erase
  split
  · next h => subst h; rw [find?_filter_ne_self]; rfl
  · next h => rw [find?_filter_ne _ h]

theorem find?_insert (table : Table κ ν) (key other : κ) (value : ν) :
    (table.insert key value).find? other = if other = key then some value else table.find? other := by
  have happend : (table.insert key value).find? other
      = ((table.erase key).find? other).or (if key = other then some value else none) := by
    unfold find? insert
    rw [List.find?_append]
    generalize (table.erase key).entries.find? (·.1 = other) = found
    cases found <;> by_cases h : key = other <;> simp [h]
  rw [happend, find?_erase]
  by_cases h : other = key
  · simp [h]
  · simp [h, Ne.symm h]

end Table

end Bytecode
