/-!
# Ordered maps

Maps with text keys that remember the order in which keys were first inserted: inserting under a
present key replaces the value in place, inserting under a new key appends. No key occurs twice,
which the type carries (`nodup`).
-/

namespace OpenApi

/-! ## Lists of entries -/

namespace Entries

/-- The value under a key. -/
def get? (key : String) : List (String × α) → Option α
  | [] => none
  | (k, v) :: rest => if k = key then some v else get? key rest

/-- Replaces the value under a present key, or appends a new entry. -/
def insert (key : String) (value : α) : List (String × α) → List (String × α)
  | [] => [(key, value)]
  | (k, v) :: rest => if k = key then (k, value) :: rest else (k, v) :: insert key value rest

theorem mem_keys_insert {key k : String} {value : α} {entries : List (String × α)} :
    k ∈ (insert key value entries).map Prod.fst ↔ k = key ∨ k ∈ entries.map Prod.fst := by
  induction entries with
  | nil => simp [insert]
  | cons e rest ih =>
    obtain ⟨k', v⟩ := e
    unfold insert
    split
    next h => subst h; simp
    next h =>
      rw [List.map_cons, List.mem_cons, ih, List.map_cons, List.mem_cons]
      exact ⟨fun h => h.elim (fun h => .inr (.inl h)) (·.elim .inl (fun h => .inr (.inr h))),
        fun h => h.elim (fun h => .inr (.inl h)) (·.elim .inl (fun h => .inr (.inr h)))⟩

theorem nodup_insert {key : String} {value : α} {entries : List (String × α)}
    (h : (entries.map Prod.fst).Nodup) : ((insert key value entries).map Prod.fst).Nodup := by
  induction entries with
  | nil => simp [insert]
  | cons e rest ih =>
    obtain ⟨k, v⟩ := e
    rw [List.map_cons, List.nodup_cons] at h
    unfold insert
    split
    next hk => subst hk; simpa using h
    next hk =>
      rw [List.map_cons, List.nodup_cons, mem_keys_insert]
      exact ⟨fun hm => hm.elim hk h.1, ih h.2⟩

end Entries

/-! ## The type -/

/-- A map from text keys that keeps the order of first insertion. -/
structure OrderedMap (α : Type u) where
  entries : List (String × α) := []
  nodup : (entries.map Prod.fst).Nodup := by simp

namespace OrderedMap

variable {α : Type u}

/-- The map without entries. -/
def empty : OrderedMap α := {}

instance : EmptyCollection (OrderedMap α) := ⟨empty⟩

instance : Inhabited (OrderedMap α) := ⟨empty⟩

@[ext] theorem ext {m n : OrderedMap α} (h : m.entries = n.entries) : m = n := by
  cases m; cases n; cases h; rfl

instance [DecidableEq α] : DecidableEq (OrderedMap α) := fun m n =>
  decidable_of_iff (m.entries = n.entries) ⟨ext, congrArg entries⟩

/-- Replaces the value under a present key in place, or appends a new entry. -/
def insert (m : OrderedMap α) (key : String) (value : α) : OrderedMap α where
  entries := Entries.insert key value m.entries
  nodup := Entries.nodup_insert m.nodup

/-- Inserts the entries of a list from left to right. -/
def insertAll (m : OrderedMap α) (entries : List (String × α)) : OrderedMap α :=
  entries.foldl (fun m e => m.insert e.1 e.2) m

/-- The map of a list of entries: first positions, last values. -/
def ofList (entries : List (String × α)) : OrderedMap α :=
  empty.insertAll entries

/-- The entries in order. -/
def toList (m : OrderedMap α) : List (String × α) := m.entries

/-- The value under a key. -/
def get? (m : OrderedMap α) (key : String) : Option α := Entries.get? key m.entries

/-- Whether the map has a key. -/
def contains (m : OrderedMap α) (key : String) : Bool := (m.get? key).isSome

/-- The keys in order. -/
def keys (m : OrderedMap α) : List String := m.entries.map Prod.fst

/-- The values in the order of their keys. -/
def values (m : OrderedMap α) : List α := m.entries.map Prod.snd

/-- The number of entries. -/
def size (m : OrderedMap α) : Nat := m.entries.length

/-- Whether the map has no entry. -/
def isEmpty (m : OrderedMap α) : Bool := m.entries.isEmpty

end OrderedMap

end OpenApi
