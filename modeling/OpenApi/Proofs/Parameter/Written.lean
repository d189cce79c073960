import OpenApi.Parameter.Definition
import OpenApi.Proofs.Json.Fields

/-!
# Written parameters

The entries of a parameter list are read back as they are written.

* `Referrer.ofValue?_toValue`: a reference is;
* `Definition.WellFormed.ofValue?_toValue`: a parameter is if its extensions are under keys of
  their own;
* `Entry.WellFormed.ofValue?_toValue`: an entry is if a written parameter is no reference, which
  holds of what is read from a value with distinct keys (`Entry.wellFormed_of_ofValue?`).
-/

namespace OpenApi.Parameter

open Json Members

/-! ## References -/

namespace Referrer

/-- What is read of the fields of a reference. -/
structure HasFields (ms : Members) (r : Referrer) : Prop where
  target : ms.required "$ref" Value.string? = some r.target
  summary : ms.optional "summary" Value.string? = some r.summary
  description : ms.optional "description" Value.string? = some r.description

theorem ofValue?_eq_some_iff {v : Value} {r : Referrer} :
    ofValue? v = some r ↔ ∃ ms, v.record? fields = some ms ∧ HasFields ms r := by
  simp only [ofValue?, bind, Option.bind_eq_some_iff]
  refine exists_congr fun ms => and_congr_right fun _ => ?_
  constructor
  · rintro ⟨target, htarget, summary, hsummary, description, hdescription, h⟩
    cases h
    exact ⟨htarget, hsummary, hdescription⟩
  · intro h
    exact ⟨_, h.target, _, h.summary, _, h.description, rfl⟩

theorem ofValue?_object {ms : Members} {r : Referrer} :
    ofValue? (.object ms) = some r ↔ HasFields ms r := by
  simp only [ofValue?_eq_some_iff, Value.record?, Option.some.injEq, exists_eq_left']

theorem ofValue?_toValue (r : Referrer) : ofValue? r.toValue = some r := by
  obtain ⟨ms, hms, h⟩ : ∃ ms, r.toValue = .object ms ∧ HasFields ms r := by
    refine Written.exists_members fields
      ⟨by decide, by simp [fields], by simp [Apart, OrderedMap.keys]⟩ fun hw => ?_
    exact {
      target := hw.required (.string r.target) (by simp [fields]) rfl
      summary := hw.optional .string (by simp [fields]) fun _ _ => ⟨by simp, rfl⟩
      description := hw.optional .string (by simp [fields]) fun _ _ => ⟨by simp, rfl⟩ }
  rw [hms, ofValue?_object]
  exact h

end Referrer

/-! ## Definitions -/

namespace Definition

/-- What is read of the fields of a parameter. -/
structure HasFields (ms : Members) (d : Definition) : Prop where
  name : ms.required "name" Value.string? = some d.name
  location : ms.required "in" (Value.word? Location.ofWord?) = some d.location
  description : ms.optional "description" Value.string? = some d.description
  required : ms.withDefault "required" false Value.bool? = some d.required
  deprecated : ms.withDefault "deprecated" false Value.bool? = some d.deprecated
  allowEmptyValue : ms.optional "allowEmptyValue" Value.bool? = some d.allowEmptyValue
  style : ms.optional "style" (Value.word? Style.ofWord?) = some d.style
  explode : ms.optional "explode" Value.bool? = some d.explode
  allowReserved : ms.optional "allowReserved" Value.bool? = some d.allowReserved
  schema : ms.optional "schema" Value.self? = some d.schema
  content : ms.optional "content" (Value.map? Value.self?) = some d.content
  extensions : ms.others fields = d.extensions

theorem ofValue?_object {ms : Members} {d : Definition} :
    ofValue? (.object ms) = some d ↔ HasFields ms d := by
  simp only [ofValue?, Value.members?, bind, Option.bind_some, Option.bind_eq_some_iff]
  constructor
  · rintro ⟨_, hname, _, hlocation, _, hdescription, _, hrequired, _, hdeprecated,
      _, hallowEmptyValue, _, hstyle, _, hexplode, _, hallowReserved, _, hschema, _, hcontent, h⟩
    cases h
    exact ⟨hname, hlocation, hdescription, hrequired, hdeprecated, hallowEmptyValue, hstyle,
      hexplode, hallowReserved, hschema, hcontent, rfl⟩
  · intro h
    refine ⟨_, h.name, _, h.location, _, h.description, _, h.required, _, h.deprecated,
      _, h.allowEmptyValue, _, h.style, _, h.explode, _, h.allowReserved, _, h.schema,
      _, h.content, ?_⟩
    rw [h.extensions]
    rfl

/-- What holds of a parameter that was read: its extensions are under keys of their own, and its
schema is not null. -/
structure WellFormed (d : Definition) : Prop where
  apart : Apart fields d.extensions
  schema : d.schema ≠ some .null

theorem HasFields.wellFormed {ms : Members} {d : Definition} (h : HasFields ms d) :
    d.WellFormed where
  apart := h.extensions ▸ apart_others ms fields
  schema := ne_null_of_optional h.schema

theorem WellFormed.exists_members {d : Definition} (h : d.WellFormed) :
    ∃ ms, d.toValue = .object ms ∧ HasFields ms d ∧
      ∀ key ∉ fields, Entries.get? key ms = d.extensions.get? key := by
  refine Written.exists_members fields ⟨by decide, by simp [fields], h.apart⟩
    fun hw => ⟨?_, fun key => hw.get?_eq_rest⟩
  exact {
    name := hw.required (.string d.name) (by simp [fields]) rfl
    location := hw.required (.string d.location.word) (by simp [fields]) d.location.ofWord?_word
    description := hw.optional .string (by simp [fields]) fun _ _ => ⟨nofun, rfl⟩
    required := hw.withDefault (.bool d.required) (by simp [fields]) rfl
    deprecated := hw.withDefault (.bool d.deprecated) (by simp [fields]) rfl
    allowEmptyValue := hw.optional .bool (by simp [fields]) fun _ _ => ⟨nofun, rfl⟩
    style := hw.optional (fun s => .string s.word) (by simp [fields])
      fun s _ => ⟨nofun, s.ofWord?_word⟩
    explode := hw.optional .bool (by simp [fields]) fun _ _ => ⟨nofun, rfl⟩
    allowReserved := hw.optional .bool (by simp [fields]) fun _ _ => ⟨nofun, rfl⟩
    schema := hw.optional id (by simp [fields])
      fun v hv => ⟨fun hnull => h.schema (hnull ▸ hv), rfl⟩
    content := hw.optional .ofMap (by simp [fields]) fun m _ => ⟨nofun, Value.map?_ofMap m⟩
    extensions := hw.others }

theorem WellFormed.ofValue?_toValue {d : Definition} (h : d.WellFormed) :
    ofValue? d.toValue = some d := by
  obtain ⟨ms, hms, hfields, -⟩ := h.exists_members
  rw [hms, ofValue?_object]
  exact hfields

end Definition

/-! ## Entries -/

namespace Entry

/-- What holds of an entry that was read: a parameter is not written as a reference. -/
def WellFormed : Entry → Prop
  | reference _ => True
  | inline d => d.WellFormed ∧ Referrer.ofValue? d.toValue = none

/-- Where the members of a parameter are no reference, those it is written with are none. -/
theorem ofValue?_toValue_eq_none {ms : Members} {d : Definition} (hms : (ms.map Prod.fst).Nodup)
    (h : d.HasFields ms) (hnone : Referrer.ofValue? (.object ms) = none) :
    Referrer.ofValue? d.toValue = none := by
  obtain ⟨written, hwritten, hfields, hrest⟩ := h.wellFormed.exists_members
  have hsame : ∀ key ∉ Definition.fields, Entries.get? key written = Entries.get? key ms := by
    intro key hkey
    rw [hrest key hkey, ← h.extensions, get?_others hms hkey]
  by_contra hsome
  obtain ⟨r, hr⟩ := Option.ne_none_iff_exists'.mp hsome
  rw [hwritten, Referrer.ofValue?_object] at hr
  have hread : Referrer.HasFields ms { r with description := d.description } := {
    target := by
      rw [Members.required, ← hsame _ (by decide)]
      exact hr.target
    summary := by
      rw [Members.optional, ← hsame _ (by decide)]
      exact hr.summary
    description := h.description }
  rw [Referrer.ofValue?_object.mpr hread] at hnone
  cases hnone

theorem wellFormed_of_ofValue? {v : Value} (hv : v.DistinctKeys) {e : Entry}
    (h : ofValue? v = some e) : e.WellFormed := by
  rw [ofValue?, Option.or_eq_some_iff] at h
  rcases h with h | ⟨hnone, h⟩
  · obtain ⟨r, -, rfl⟩ := Option.map_eq_some_iff.mp h
    exact trivial
  · rw [Option.map_eq_none_iff] at hnone
    obtain ⟨d, hd, rfl⟩ := Option.map_eq_some_iff.mp h
    obtain ⟨ms, hms, -⟩ := Option.bind_eq_some_iff.mp hd
    obtain rfl := Value.members?_eq_some_iff.mp hms
    have hfields := Definition.ofValue?_object.mp hd
    exact ⟨hfields.wellFormed, ofValue?_toValue_eq_none hv.1 hfields hnone⟩

/-- The entries of a list that was read, or is absent. -/
theorem wellFormed_of_withDefault {ms : Members} (hms : (Value.object ms).DistinctKeys)
    {key : String} {entries : List Entry}
    (h : ms.withDefault key [] (Value.list? ofValue?) = some entries) :
    ∀ e ∈ entries, e.WellFormed := by
  intro e he
  rcases eq_or_exists_of_withDefault h with rfl | ⟨v, hv, hread⟩
  · cases he
  · obtain ⟨items, rfl, u, hu, hentry⟩ := Value.exists_item_of_list? hread he
    have hitems : (Value.array items).DistinctKeys := distinctKeys_of_mem_members hms.2 hv
    exact wellFormed_of_ofValue? (distinctKeys_of_mem_items hitems hu) hentry

theorem WellFormed.ofValue?_toValue {e : Entry} (h : e.WellFormed) :
    ofValue? e.toValue = some e := by
  cases e with
  | reference r =>
    rw [toValue, ofValue?, Referrer.ofValue?_toValue]
    rfl
  | inline d =>
    rw [toValue, ofValue?, h.2, h.1.ofValue?_toValue]
    rfl

end Entry

end OpenApi.Parameter
