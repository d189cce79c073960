/-!
# Type sets

Sets of JSON Schema type names that remember the order in which names were first inserted.
-/

namespace OpenApi

/-- An ordered set of type names. -/
structure TypeSet where
  names : List String := []
  nodup : names.Nodup := by simp

namespace TypeSet

@[ext] theorem ext {s t : TypeSet} (h : s.names = t.names) : s = t := by
  cases s; cases t; cases h; rfl

instance : DecidableEq TypeSet := fun s t =>
  decidable_of_iff (s.names = t.names) ⟨ext, congrArg names⟩

/-- The set without names. -/
def empty : TypeSet := {}

instance : EmptyCollection TypeSet := ⟨empty⟩

instance : Inhabited TypeSet := ⟨empty⟩

/-- Appends a name unless it is present. -/
def insert (s : TypeSet) (name : String) : TypeSet :=
  if h : name ∈ s.names then s
  else
    { names := s.names ++ [name]
      nodup := by
        rw [List.nodup_append]
        exact ⟨s.nodup, by simp, fun a ha b hb => by
          rw [List.mem_singleton] at hb; subst hb; exact fun e => h (e ▸ ha)⟩ }

/-- Inserts names from left to right. -/
def insertAll (s : TypeSet) (names : List String) : TypeSet := names.foldl insert s

/-- The set of a list of names. -/
def ofList (names : List String) : TypeSet := empty.insertAll names

/-- The set of one name. -/
def single (name : String) : TypeSet := { names := [name] }

/-- The names of the first set, then the others of the second. -/
def union (s t : TypeSet) : TypeSet := s.insertAll t.names

/-- Whether the set has no name. -/
def isEmpty (s : TypeSet) : Bool := s.names.isEmpty

/-- Whether a name is in the set. -/
def contains (s : TypeSet) (name : String) : Bool := s.names.contains name

theorem isEmpty_iff {s : TypeSet} : s.isEmpty = true ↔ s = .empty := by
  rw [isEmpty, List.isEmpty_iff]
  exact ⟨fun h => ext h, congrArg names⟩

theorem insertAll_append (s : TypeSet) (names names' : List String) :
    s.insertAll (names ++ names') = (s.insertAll names).insertAll names' :=
  List.foldl_append

theorem foldl_union (s : TypeSet) (sets : List TypeSet) :
    sets.foldl union s = s.insertAll (sets.flatMap names) := by
  induction sets generalizing s with
  | nil => rfl
  | cons t sets ih => rw [List.foldl_cons, ih, List.flatMap_cons, insertAll_append, union]

end TypeSet

end OpenApi
