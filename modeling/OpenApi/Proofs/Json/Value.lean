import OpenApi.Json.Fields
import OpenApi.Proofs.OrderedMap
import OpenApi.Proofs.Result

/-!
# Parts of JSON values

What arrays and objects share with the values in them: their keys are distinct throughout
(`distinctKeys_of_mem_items`, `distinctKeys_of_mem_members`), what is read from them is read from
their parts (`Value.exists_item_of_list?`, `Value.exists_member_of_map?`), and what is written is
read back if its parts are (`Value.list?_map`, `Value.map?_map`).
-/

namespace OpenApi.Json

variable {α : Type}

/-! ## Distinct keys -/

theorem distinctKeys_of_mem_members {members : List (String × Value)}
    (h : Value.DistinctKeysMembers members) {m : String × Value} (hm : m ∈ members) :
    m.2.DistinctKeys := by
  induction members with
  | nil => cases hm
  | cons m' members ih =>
    obtain ⟨key, v⟩ := m'
    rcases List.mem_cons.mp hm with rfl | hm
    · exact h.1
    · exact ih h.2 hm

theorem distinctKeys_of_mem_items {items : List Value} (h : Value.DistinctKeysList items)
    {v : Value} (hv : v ∈ items) : v.DistinctKeys := by
  induction items with
  | nil => cases hv
  | cons v' items ih =>
    rcases List.mem_cons.mp hv with rfl | hv
    · exact h.1
    · exact ih h.2 hv

/-! ## Containers -/

namespace Value

theorem members?_eq_some_iff {v : Value} {ms : Members} :
    v.members? = some ms ↔ v = .object ms := by
  cases v <;> simp [members?]

theorem items?_eq_some_iff {v : Value} {vs : List Value} :
    v.items? = some vs ↔ v = .array vs := by
  cases v <;> simp [items?]

/-- A list whose items are read back is read back. -/
theorem list?_map {read : Value → Option α} {write : α → Value} {items : List α}
    (h : ∀ a ∈ items, read (write a) = some a) :
    list? read (.array (items.map write)) = some items := by
  refine mapM_eq_some_iff.mpr (List.forall₂_map_left_iff.mpr ?_)
  exact List.forall₂_same.mpr h

theorem strings?_eq : strings? = list? string? := by
  funext v
  cases v <;> rfl

/-- A map whose values are read back is read back. -/
theorem map?_map {read : Value → Option α} {write : α → Value} {m : OrderedMap α}
    (h : ∀ a ∈ m.values, read (write a) = some a) :
    map? read (.object (m.entries.map fun e => (e.1, write e.2))) = some m := by
  have hentries : (m.entries.map fun e => (e.1, write e.2)).mapM
      (fun e => (read e.2).map fun a => (e.1, a)) = some m.entries := by
    refine mapM_eq_some_iff.mpr (List.forall₂_map_left_iff.mpr (List.forall₂_same.mpr ?_))
    intro e he
    rw [h e.2 (List.mem_map_of_mem he), Option.map_some]
  rw [map?, members?, Option.bind_some, hentries, Option.map_some]
  exact congrArg some (OrderedMap.ext (OrderedMap.entries_ofList m.nodup))

theorem map?_ofMap (m : OrderedMap Value) : map? self? (.ofMap m) = some m := by
  have h := @map?_map _ self? id m fun _ _ => rfl
  simpa [ofMap] using h

/-- The values of a map that is read are read from those of the members. -/
theorem exists_member_of_map? {read : Value → Option α} {v : Value} {m : OrderedMap α}
    (h : map? read v = some m) {a : α} (ha : a ∈ m.values) :
    ∃ ms, v = .object ms ∧ ∃ u ∈ ms.map Prod.snd, read u = some a := by
  obtain ⟨ms, hms, h⟩ := Option.bind_eq_some_iff.mp h
  obtain ⟨entries, hentries, rfl⟩ := Option.map_eq_some_iff.mp h
  refine ⟨ms, members?_eq_some_iff.mp hms, ?_⟩
  rcases OrderedMap.mem_values_insertAll ha with ha | ha
  · cases ha
  · obtain ⟨e, he, rfl⟩ := List.mem_map.mp ha
    obtain ⟨m, hm, hmap⟩ := exists_of_mem_forall₂ (mapM_eq_some_iff.mp hentries) he
    obtain ⟨a, hread, rfl⟩ := Option.map_eq_some_iff.mp hmap
    exact ⟨m.2, List.mem_map_of_mem hm, hread⟩

/-- The items of a list that is read are read from those of the array. -/
theorem exists_item_of_list? {read : Value → Option α} {v : Value} {items : List α}
    (h : list? read v = some items) {a : α} (ha : a ∈ items) :
    ∃ vs, v = .array vs ∧ ∃ u ∈ vs, read u = some a := by
  obtain ⟨vs, hvs, h⟩ := Option.bind_eq_some_iff.mp h
  have hv : v = .array vs := items?_eq_some_iff.mp hvs
  exact ⟨vs, hv, exists_of_mem_forall₂ (mapM_eq_some_iff.mp h) ha⟩

end Value

end OpenApi.Json
