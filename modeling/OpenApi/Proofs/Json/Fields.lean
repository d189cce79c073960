import Mathlib.Data.List.Forall2
import Mathlib.Data.List.Nodup
import OpenApi.Proofs.Json.Value

/-!
# Written fields

What is read of an object is read of its members (`Members.exists_of_optional`,
`Members.eq_or_exists_of_withDefault`), and the members under other keys than those of its fields
are left over (`Members.apart_others`, `Members.get?_others`).

An object is written from named fields, each of which may be absent, followed by the entries of a
map whose keys name no field (`Members.Written`). Reading a field finds what was written for it:

* `Written.ofFields_eq`: nothing is merged, so the members are those of the fields and of the map;
* `Written.get?_eq`, `Written.get?_eq_rest`: what stands under the key of a field, and under others;
* `Written.required`, `Written.optional`, `Written.withDefault`, `Written.list`, `Written.map`: the
  readings of a field that invert its writing;
* `Written.others`: the map is what is left over.
-/

namespace OpenApi.Json

variable {α : Type}

namespace Members

/-! ## Read fields -/

section

variable {ms : Members} {key : String} {read : Value → Option α}

theorem exists_of_optional {a : α} (h : ms.optional key read = some (some a)) :
    ∃ v, (key, v) ∈ ms ∧ v ≠ .null ∧ read v = some a := by
  rw [optional] at h
  split at h
  next => cases h
  next => cases h
  next v hnull hv =>
    obtain ⟨b, hb, he⟩ := Option.map_eq_some_iff.mp h
    exact ⟨v, Entries.mem_of_get? hv, hnull, by rw [hb, Option.some.inj he]⟩

theorem eq_or_exists_of_withDefault {a default : α} (h : ms.withDefault key default read = some a) :
    a = default ∨ ∃ v, (key, v) ∈ ms ∧ read v = some a := by
  rw [withDefault] at h
  split at h
  next => exact .inl (Option.some.inj h).symm
  next v hv => exact .inr ⟨v, Entries.mem_of_get? hv, h⟩

/-- An optional field that keeps any value does not keep null. -/
theorem ne_null_of_optional {o : Option Value} (h : ms.optional key Value.self? = some o) :
    o ≠ some .null := by
  rintro rfl
  obtain ⟨v, -, hnull, hv⟩ := exists_of_optional h
  exact hnull (Option.some.inj hv)

end

/-- The entries of a map are under none of the given keys. -/
def Apart (known : List String) (rest : OrderedMap Value) : Prop := ∀ key ∈ rest.keys, key ∉ known

theorem apart_others (ms : Members) (known : List String) : Apart known (ms.others known) := by
  intro key hkey hknown
  obtain ⟨e, he, rfl⟩ := List.mem_map.mp hkey
  have hget : (OrderedMap.ofList _).get? e.1 = some e.2 := OrderedMap.get?_eq_some_iff.mpr he
  rw [OrderedMap.get?_ofList] at hget
  have hkept := (List.mem_filter.mp (List.mem_reverse.mp (Entries.mem_of_get? hget))).2
  simp [hknown] at hkept

/-- What stands under other keys than the given ones is kept. -/
theorem get?_others {ms : Members} (hms : (ms.map Prod.fst).Nodup) {known : List String}
    {key : String} (hkey : key ∉ known) : (ms.others known).get? key = Entries.get? key ms := by
  have hfilter : ((ms.filter fun m => !known.contains m.1).map Prod.fst).Nodup :=
    hms.sublist (List.filter_sublist.map _)
  rw [others, OrderedMap.get?, OrderedMap.entries_ofList hfilter, Entries.get?_filter hms]
  cases Entries.get? key ms <;> simp [hkey]

/-! ## Written fields -/

/-- What is written for a field: one member under its key, or nothing. -/
inductive IsField (key : String) : Members → Prop
  | absent : IsField key []
  | present (v : Value) : IsField key [(key, v)]

@[simp] theorem isField_field (key : String) (v : Value) : IsField key (field key v) := .present v

@[simp] theorem isField_fieldIfSet (key : String) (write : α → Value) (o : Option α) :
    IsField key (fieldIfSet key write o) := by
  cases o
  · exact .absent
  · exact .present _

@[simp] theorem isField_fieldIfAny (key : String) (write : α → Value) (items : List α) :
    IsField key (fieldIfAny key write items) := by
  cases items
  · exact .absent
  · exact .present _

@[simp] theorem isField_fieldIfEntries (key : String) (write : α → Value) (m : OrderedMap α) :
    IsField key (fieldIfEntries key write m) := by
  rw [fieldIfEntries]
  split
  · exact .absent
  · exact .present _

theorem IsField.sublist {key : String} {f : Members} (h : IsField key f) :
    (f.map Prod.fst).Sublist [key] := by
  cases h
  · exact List.nil_sublist _
  · exact List.Sublist.refl _

/-- Fields with different keys, and a map with none of them. -/
structure Written (known : List String) (fields : List Members) (rest : OrderedMap Value) :
    Prop where
  nodup : known.Nodup
  fields : List.Forall₂ IsField known fields
  apart : Apart known rest

theorem sublist_known {known : List String} {fields : List Members}
    (h : List.Forall₂ IsField known fields) : (fields.flatten.map Prod.fst).Sublist known := by
  induction h with
  | nil => exact .slnil
  | cons hf _ ih =>
    rw [List.flatten_cons, List.map_append]
    exact hf.sublist.append ih

namespace Written

variable {known : List String} {fields : List Members} {rest : OrderedMap Value} {key : String}
  (h : Written known fields rest)
include h

theorem nodup_keys : ((fields.flatten ++ rest.entries).map Prod.fst).Nodup := by
  have hsub := sublist_known h.fields
  rw [List.map_append, List.nodup_append']
  exact ⟨hsub.nodup h.nodup, rest.nodup, fun key hk hr => h.apart key hr (hsub.subset hk)⟩

/-- No member is written over another one. -/
theorem ofFields_eq : Value.ofFields fields rest = .object (fields.flatten ++ rest.entries) :=
  congrArg Value.object (OrderedMap.entries_ofList h.nodup_keys)

/-- The members under other keys are those of the map. -/
theorem others : Members.others (fields.flatten ++ rest.entries) known = rest := by
  have hfields : fields.flatten.filter (fun m => !known.contains m.1) = [] := by
    refine List.filter_eq_nil_iff.mpr fun m hm => ?_
    simpa using (sublist_known h.fields).subset (List.mem_map_of_mem hm)
  have hrest : rest.entries.filter (fun m => !known.contains m.1) = rest.entries := by
    refine List.filter_eq_self.mpr fun m hm => ?_
    simpa using h.apart m.1 (List.mem_map_of_mem hm)
  rw [Members.others, List.filter_append, hfields, hrest, List.nil_append]
  exact OrderedMap.ext (OrderedMap.entries_ofList rest.nodup)

theorem get?_eq_rest (hk : key ∉ known) :
    Entries.get? key (fields.flatten ++ rest.entries) = rest.get? key := by
  have hfields : Entries.get? key fields.flatten = none :=
    Entries.get?_eq_none_iff.mpr fun hm => hk ((sublist_known h.fields).subset hm)
  rw [Entries.get?_append, hfields, Option.none_or]
  rfl

/-- Under the key of a field stands what is written for it. -/
theorem get?_eq {f : Members} (hf : (key, f) ∈ known.zip fields) :
    Entries.get? key (fields.flatten ++ rest.entries) = f.head?.map Prod.snd := by
  obtain ⟨hnodup, hfields, hapart⟩ := h
  have hrest : Entries.get? key rest.entries = none :=
    Entries.get?_eq_none_iff.mpr fun hr => hapart key hr (List.of_mem_zip hf).1
  rw [Entries.get?_append, hrest, Option.or_none]
  clear hapart hrest
  induction hfields with
  | nil => cases hf
  | @cons key' f' known fields hf' hfields ih =>
    rw [List.nodup_cons] at hnodup
    rw [List.flatten_cons, Entries.get?_append]
    rcases List.mem_cons.mp hf with he | hf
    · cases he
      have hlater : Entries.get? key fields.flatten = none :=
        Entries.get?_eq_none_iff.mpr fun hm => hnodup.1 ((sublist_known hfields).subset hm)
      rw [hlater, Option.or_none]
      cases hf' with
      | absent => rfl
      | present v => simp [Entries.get?]
    · have hne : key' ≠ key := fun he => hnodup.1 (he ▸ (List.of_mem_zip hf).1)
      have hearlier : Entries.get? key f' = none := by
        cases hf' with
        | absent => rfl
        | present v => simp [Entries.get?, hne]
      rw [hearlier, Option.none_or]
      exact ih hf hnodup.2

/-! ### Readings -/

theorem required (v : Value) {read : Value → Option α} {a : α}
    (hf : (key, field key v) ∈ known.zip fields) (hread : read v = some a) :
    Members.required (fields.flatten ++ rest.entries) key read = some a := by
  rw [Members.required, h.get?_eq hf]
  exact hread

theorem withDefault (v : Value) {read : Value → Option α} {a default : α}
    (hf : (key, field key v) ∈ known.zip fields) (hread : read v = some a) :
    Members.withDefault (fields.flatten ++ rest.entries) key default read = some a := by
  rw [Members.withDefault, h.get?_eq hf]
  exact hread

theorem optional (write : α → Value) {read : Value → Option α} {o : Option α}
    (hf : (key, fieldIfSet key write o) ∈ known.zip fields)
    (hread : ∀ a ∈ o, write a ≠ .null ∧ read (write a) = some a) :
    Members.optional (fields.flatten ++ rest.entries) key read = some o := by
  rw [Members.optional, h.get?_eq hf]
  cases o with
  | none => rfl
  | some a =>
    obtain ⟨hnull, ha⟩ := hread a rfl
    simp only [fieldIfSet, List.head?_cons, Option.map_some]
    cases hw : write a with
    | null => exact absurd hw hnull
    | _ => simp only [← hw, ha, Option.map_some]

theorem list (write : α → Value) {read : Value → Option α} {items : List α}
    (hf : (key, fieldIfAny key write items) ∈ known.zip fields)
    (hread : ∀ a ∈ items, read (write a) = some a) :
    Members.withDefault (fields.flatten ++ rest.entries) key [] (Value.list? read) =
      some items := by
  rw [Members.withDefault, h.get?_eq hf]
  cases items with
  | nil => rfl
  | cons a items => exact Value.list?_map hread

theorem map (write : α → Value) {read : Value → Option α} {m : OrderedMap α}
    (hf : (key, fieldIfEntries key write m) ∈ known.zip fields)
    (hread : ∀ a ∈ m.values, read (write a) = some a) :
    Members.withDefault (fields.flatten ++ rest.entries) key .empty (Value.map? read) =
      some m := by
  rw [Members.withDefault, h.get?_eq hf, fieldIfEntries]
  cases hm : m.isEmpty with
  | true =>
    have hempty : m = .empty := OrderedMap.ext (List.isEmpty_iff.mp hm)
    rw [hempty]
    rfl
  | false => exact Value.map?_map hread

omit h in
/-- An object that is written is one of members that can be read. -/
theorem exists_members (known : List String) {P : Members → Prop} (h : Written known fields rest)
    (hread : Written known fields rest → P (fields.flatten ++ rest.entries)) :
    ∃ ms, Value.ofFields fields rest = .object ms ∧ P ms :=
  ⟨_, h.ofFields_eq, hread h⟩

end Written

end Members

end OpenApi.Json
