import OpenApi.PathMap
import OpenApi.Proofs.Operation

/-!
# Written path maps

The path items of a document are read back as they are written.

* `PathItem.WellFormed.ofValue?_toValue`: a path item is if its parts are and its extensions are
  under keys of their own, as those of a path item are that was read;
* `PathMap.ofValue_toValue`: so is a path map that was read from a value with distinct keys, its
  items in order.
-/

namespace OpenApi

open Json Members

/-! ## Path items -/

namespace PathItem

/-- What is read of the fields of a path item. -/
structure HasFields (ms : Members) (p : PathItem) : Prop where
  reference : ms.optional "$ref" Value.string? = some p.reference
  summary : ms.optional "summary" Value.string? = some p.summary
  description : ms.optional "description" Value.string? = some p.description
  servers : ms.withDefault "servers" [] (Value.list? Server.ofValue?) = some p.servers
  parameters :
    ms.withDefault "parameters" [] (Value.list? Parameter.Entry.ofValue?) = some p.parameters
  fixed : ∀ m, slotOf? ms m = some (p.fixed m)
  additional : ms.withDefault "additionalOperations" .empty (Value.map? Operation.ofValue?) =
    some p.additional
  extensions : ms.others fields = p.extensions

theorem slotOf?_of_all {ms : Members}
    (h : (FixedMethod.all.all fun m => (slotOf? ms m).isSome) = true) (m : FixedMethod) :
    slotOf? ms m = some (slotOf? ms m).join := by
  have hm := List.all_eq_true.mp h m (by cases m <;> decide)
  obtain ⟨slot, hslot⟩ := Option.isSome_iff_exists.mp hm
  rw [hslot, Option.join_some]

theorem ofValue?_object {ms : Members} {p : PathItem} :
    ofValue? (.object ms) = some p ↔ HasFields ms p := by
  simp only [ofValue?, Value.members?, bind, Option.bind_some]
  constructor
  · intro h
    split at h
    next hall =>
      simp only [Option.bind_eq_some_iff] at h
      obtain ⟨_, hreference, _, hsummary, _, hdescription, _, hservers, _, hparameters,
        _, hadditional, h⟩ := h
      cases h
      exact ⟨hreference, hsummary, hdescription, hservers, hparameters, slotOf?_of_all hall,
        hadditional, rfl⟩
    next => cases h
  · intro h
    have hall : (FixedMethod.all.all fun m => (slotOf? ms m).isSome) = true :=
      List.all_eq_true.mpr fun m _ => by rw [h.fixed m, Option.isSome_some]
    have hfixed : (fun m => (slotOf? ms m).join) = p.fixed :=
      funext fun m => by rw [h.fixed m, Option.join_some]
    rw [if_pos hall, h.reference, h.summary, h.description, h.servers, h.parameters, h.additional,
      h.extensions, hfixed]
    rfl

/-- What holds of a path item that was read: its extensions are under keys of their own, and its
parts were read. -/
structure WellFormed (p : PathItem) : Prop where
  apart : Apart fields p.extensions
  servers : ∀ s ∈ p.servers, s.WellFormed
  parameters : ∀ e ∈ p.parameters, e.WellFormed
  fixed : ∀ m, ∀ o ∈ p.fixed m, o.WellFormed
  additional : ∀ o ∈ p.additional.values, o.WellFormed

theorem wellFormed_of_ofValue? {v : Value} (hv : v.DistinctKeys) {p : PathItem}
    (h : ofValue? v = some p) : p.WellFormed := by
  obtain ⟨ms, hms, -⟩ := Option.bind_eq_some_iff.mp h
  obtain rfl := Value.members?_eq_some_iff.mp hms
  have hfields := ofValue?_object.mp h
  exact {
    apart := hfields.extensions ▸ apart_others ms fields
    servers := fun s hs => by
      rcases eq_or_exists_of_withDefault hfields.servers with hnil | ⟨u, -, hu⟩
      · rw [hnil] at hs
        cases hs
      · obtain ⟨_, rfl, _, -, hread⟩ := Value.exists_item_of_list? hu hs
        exact Server.wellFormed_of_ofValue? hread
    parameters := Parameter.Entry.wellFormed_of_withDefault hv hfields.parameters
    fixed := fun m o ho => by
      obtain ⟨u, hm, -, hu⟩ := exists_of_optional (ho ▸ hfields.fixed m)
      exact Operation.wellFormed_of_ofValue? (distinctKeys_of_mem_members hv.2 hm) hu
    additional := fun o ho => by
      rcases eq_or_exists_of_withDefault hfields.additional with hempty | ⟨u, hm, hu⟩
      · rw [hempty] at ho
        cases ho
      · obtain ⟨members, rfl, w, hw, hread⟩ := Value.exists_member_of_map? hu ho
        have hu : (Value.object members).DistinctKeys := distinctKeys_of_mem_members hv.2 hm
        obtain ⟨e, he, rfl⟩ := List.mem_map.mp hw
        exact Operation.wellFormed_of_ofValue? (distinctKeys_of_mem_members hu.2 he) hread }

theorem WellFormed.ofValue?_toValue {p : PathItem} (h : p.WellFormed) :
    ofValue? p.toValue = some p := by
  obtain ⟨ms, hms, hfields⟩ : ∃ ms, p.toValue = .object ms ∧ HasFields ms p := by
    refine Written.exists_members fields
      ⟨by decide, by simp [fields, FixedMethod.all], h.apart⟩ fun hw => ?_
    exact {
      reference := hw.optional .string (by simp [fields]) fun _ _ => ⟨nofun, rfl⟩
      summary := hw.optional .string (by simp [fields]) fun _ _ => ⟨nofun, rfl⟩
      description := hw.optional .string (by simp [fields]) fun _ _ => ⟨nofun, rfl⟩
      servers := hw.list Server.toValue (by simp [fields])
        fun s hs => (h.servers s hs).ofValue?_toValue
      parameters := hw.list Parameter.Entry.toValue (by simp [fields])
        fun e he => (h.parameters e he).ofValue?_toValue
      fixed := fun m => hw.optional Operation.toValue
        (by cases m <;> simp [fields, FixedMethod.all])
        fun o ho => ⟨nofun, (h.fixed m o ho).ofValue?_toValue⟩
      additional := hw.map Operation.toValue (by simp [fields, FixedMethod.all])
        fun o ho => (h.additional o ho).ofValue?_toValue
      extensions := hw.others }
  rw [hms, ofValue?_object]
  exact hfields

end PathItem

/-! ## Path maps -/

namespace PathMap

/-- What holds of a path map that was read: the keys with `x-` at their front are those of the
extensions, and its items were read. -/
structure WellFormed (p : PathMap) : Prop where
  items : ∀ key ∈ p.items.keys, ¬Text.startsWith "x-" key
  extensions : ∀ key ∈ p.extensions.keys, Text.startsWith "x-" key
  item : ∀ item ∈ p.items.values, item.WellFormed

theorem WellFormed.empty : WellFormed {} := ⟨nofun, nofun, nofun⟩

/-- Reading an entry keeps what holds of a path map. -/
theorem WellFormed.readEntry {p p' : PathMap} (hp : p.WellFormed) {key : String} {v : Value}
    (hv : v.DistinctKeys) (h : p.readEntry key v = .ok p') : p'.WellFormed := by
  rw [PathMap.readEntry] at h
  split at h
  next hx =>
    cases h
    refine { hp with extensions := fun k hk => ?_ }
    rcases Entries.mem_keys_insert.mp hk with rfl | hk
    · exact hx
    · exact hp.extensions k hk
  next hx =>
    split at h
    next item hitem =>
      cases h
      refine { hp with items := fun k hk => ?_, item := fun i hi => ?_ }
      · rcases Entries.mem_keys_insert.mp hk with rfl | hk
        · exact hx
        · exact hp.items k hk
      · rcases Entries.mem_values_insert hi with rfl | hi
        · exact PathItem.wellFormed_of_ofValue? hv hitem
        · exact hp.item i hi
    next => cases h

theorem WellFormed.foldlM_readEntry {ms : Members} (hms : Value.DistinctKeysMembers ms)
    {p p' : PathMap} (hp : p.WellFormed)
    (h : ms.foldlM (fun p m => p.readEntry m.1 m.2) p = .ok p') : p'.WellFormed := by
  induction ms generalizing p with
  | nil =>
    cases h
    exact hp
  | cons m ms ih =>
    rw [List.foldlM_cons, bind_eq_ok_iff] at h
    obtain ⟨next, hnext, h⟩ := h
    exact ih hms.2 (hp.readEntry hms.1 hnext) h

theorem ofValue_object (ms : Members) :
    ofValue (.object ms) = ms.foldlM (fun p m => p.readEntry m.1 m.2) {} := rfl

theorem wellFormed_of_ofValue {v : Value} (hv : v.DistinctKeys) {p : PathMap}
    (h : ofValue v = .ok p) : p.WellFormed := by
  cases v with
  | object ms => exact WellFormed.empty.foldlM_readEntry hv.2 (ofValue_object ms ▸ h)
  | _ => cases h

/-- Items that are written are read in order, after those that are there. -/
theorem foldlM_readEntry_items {entries : List (String × PathItem)} (p : PathMap)
    (hkeys : ∀ e ∈ entries, ¬Text.startsWith "x-" e.1)
    (hitems : ∀ e ∈ entries, PathItem.ofValue? e.2.toValue = some e.2) :
    (entries.map fun e => (e.1, e.2.toValue)).foldlM (fun p m => readEntry p m.1 m.2) p =
      .ok { p with items := p.items.insertAll entries } := by
  induction entries generalizing p with
  | nil => rfl
  | cons e entries ih =>
    rw [List.forall_mem_cons] at hkeys hitems
    have hread : p.readEntry e.1 e.2.toValue = .ok { p with items := p.items.insert e.1 e.2 } := by
      rw [readEntry, if_neg hkeys.1, hitems.1]
    rw [List.map_cons, List.foldlM_cons, hread]
    exact ih _ hkeys.2 hitems.2

/-- Extensions are read in order, after those that are there. -/
theorem foldlM_readEntry_extensions {entries : List (String × Value)} (p : PathMap)
    (hkeys : ∀ e ∈ entries, Text.startsWith "x-" e.1) :
    entries.foldlM (fun p m => readEntry p m.1 m.2) p =
      .ok { p with extensions := p.extensions.insertAll entries } := by
  induction entries generalizing p with
  | nil => rfl
  | cons e entries ih =>
    rw [List.forall_mem_cons] at hkeys
    have hread :
        p.readEntry e.1 e.2 = .ok { p with extensions := p.extensions.insert e.1 e.2 } := by
      rw [readEntry, if_pos hkeys.1]
    rw [List.foldlM_cons, hread]
    exact ih _ hkeys.2

theorem WellFormed.toValue_eq {p : PathMap} (h : p.WellFormed) :
    p.toValue = .object (p.items.entries.map (fun e => (e.1, e.2.toValue)) ++
      p.extensions.entries) := by
  have hkeys : (p.items.entries.map fun e => (e.1, e.2.toValue)).map Prod.fst = p.items.keys := by
    rw [List.map_map]
    rfl
  have hnodup : ((p.items.entries.map (fun e => (e.1, e.2.toValue)) ++
      p.extensions.entries).map Prod.fst).Nodup := by
    rw [List.map_append, hkeys, List.nodup_append']
    exact ⟨p.items.nodup, p.extensions.nodup, fun key hi hx => h.items key hi (h.extensions key hx)⟩
  have hfields : [p.items.entries.map fun e => (e.1, e.2.toValue)].flatten =
      p.items.entries.map fun e => (e.1, e.2.toValue) := List.flatten_singleton
  rw [toValue, Value.ofFields, Value.ofMap, hfields, OrderedMap.entries_ofList hnodup]

theorem WellFormed.ofValue_eq {p : PathMap} (h : p.WellFormed) : ofValue p.toValue = .ok p := by
  have hitems := foldlM_readEntry_items {}
    (fun e he => h.items e.1 (List.mem_map_of_mem he))
    (fun e he => (h.item e.2 (List.mem_map_of_mem he)).ofValue?_toValue)
  have hextensions := foldlM_readEntry_extensions { items := .ofList p.items.entries }
    (fun e he => h.extensions e.1 (List.mem_map_of_mem he))
  rw [h.toValue_eq, ofValue_object, List.foldlM_append, bind_eq_ok_iff]
  refine ⟨_, hitems, hextensions.trans (congrArg Except.ok ?_)⟩
  have hi : OrderedMap.ofList p.items.entries = p.items :=
    OrderedMap.ext (OrderedMap.entries_ofList p.items.nodup)
  have hx : OrderedMap.ofList p.extensions.entries = p.extensions :=
    OrderedMap.ext (OrderedMap.entries_ofList p.extensions.nodup)
  rw [hi, ← OrderedMap.ofList, hx]

/-- A path map that was read is written so that it is read again as itself, and none of its
extensions is written under the key of a field. -/
theorem ofValue_toValue_of_ofValue {v : Value} (hv : v.DistinctKeys) {p : PathMap}
    (h : ofValue v = .ok p) : ofValue p.toValue = .ok p ∧ p.WellFormed := by
  have hp := wellFormed_of_ofValue hv h
  exact ⟨hp.ofValue_eq, hp⟩

/-- A parameter whose `$ref` is no text, with no content in place of a schema. -/
def unreferring : Members :=
  [("name", .string "p"), ("in", .string "query"), ("$ref", .bool true), ("content", .object [])]

/-- A reference beside the fields of a parameter. -/
def referring : Members :=
  [("$ref", .string "#/components/parameters/P"), ("name", .string "q"), ("in", .string "query")]

/-- A reference as an array of its fields, without the last. -/
def referringItems : List Value := [.string "#/components/parameters/R", .null]

/-- An operation with empty lists, no tags and an extension that is null. -/
def unsecured : Members :=
  [("security", .array []), ("servers", .array []), ("tags", .array []), ("x-a", .null)]

/-- A path with these entries and that operation, and an extension of the map. -/
def mixedPaths : Value := .object [
  ("x-b", .bool true),
  ("/a", .object [("get", .object unsecured), ("summary", .null),
    ("parameters", .array [.object unreferring, .object referring, .array referringItems])])]

/-- Which parameters are references, and whether an operation declares its security. -/
def mixedShape (p : PathMap) : List (List Bool × Option Bool) :=
  p.items.values.map fun item =>
    (item.parameters.map fun
      | .inline _ => false
      | .reference _ => true,
    (item.fixed .get).map fun o => o.security.isSome)

theorem ofValue_toValue_mixed : ∃ p, ofValue mixedPaths = .ok p ∧
    (ofValue p.toValue = .ok p ∧ p.WellFormed) ∧
    mixedShape p = [([false, true, true], some true)] := by
  have hshape :
      (ofValue mixedPaths).toOption.map mixedShape = some [([false, true, true], some true)] := by
    decide +kernel
  cases h : ofValue mixedPaths with
  | error =>
    rw [h] at hshape
    cases hshape
  | ok p =>
    rw [h] at hshape
    refine ⟨p, rfl, ofValue_toValue_of_ofValue ?_ h, Option.some.inj hshape⟩
    simp [Value.DistinctKeys, Value.DistinctKeysMembers, Value.DistinctKeysList, mixedPaths,
      unsecured, unreferring, referring, referringItems]

end PathMap

end OpenApi
