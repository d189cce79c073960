import OpenApi.Operation
import OpenApi.Proofs.Parameter.Written

/-!
# Written operations

Servers and operations are read back as they are written.

* `Server.WellFormed.ofValue?_toValue`, `Operation.WellFormed.ofValue?_toValue`: they are if their
  extensions are under keys of their own, and so are those of their parts;
* `Server.wellFormed_of_ofValue?`, `Operation.wellFormed_of_ofValue?`: this holds of what is read
  from a value with distinct keys.
-/

namespace OpenApi

open Json Members

/-! ## Servers -/

namespace Server

/-- The fields of a server. -/
def fields : List String := ["url", "description", "variables"]

/-- What is read of the fields of a server. -/
structure HasFields (ms : Members) (s : Server) : Prop where
  url : ms.required "url" Value.string? = some s.url
  description : ms.optional "description" Value.string? = some s.description
  variableValues :
    ms.withDefault "variables" .empty (Value.map? Value.self?) = some s.variableValues
  extensions : ms.others fields = s.extensions

theorem ofValue?_object {ms : Members} {s : Server} :
    ofValue? (.object ms) = some s ↔ HasFields ms s := by
  simp only [ofValue?, Value.members?, bind, Option.bind_some, Option.bind_eq_some_iff]
  constructor
  · rintro ⟨_, hurl, _, hdescription, _, hvariables, h⟩
    cases h
    exact ⟨hurl, hdescription, hvariables, rfl⟩
  · intro h
    refine ⟨_, h.url, _, h.description, _, h.variableValues, ?_⟩
    rw [← fields, h.extensions]
    rfl

/-- What holds of a server that was read: its extensions are under keys of their own. -/
def WellFormed (s : Server) : Prop := Apart fields s.extensions

theorem wellFormed_of_ofValue? {v : Value} {s : Server} (h : ofValue? v = some s) :
    s.WellFormed := by
  obtain ⟨ms, hms, -⟩ := Option.bind_eq_some_iff.mp h
  obtain rfl := Value.members?_eq_some_iff.mp hms
  rw [WellFormed, ← (ofValue?_object.mp h).extensions]
  exact apart_others ms fields

theorem WellFormed.ofValue?_toValue {s : Server} (h : s.WellFormed) :
    ofValue? s.toValue = some s := by
  obtain ⟨ms, hms, hfields⟩ : ∃ ms, s.toValue = .object ms ∧ HasFields ms s := by
    refine Written.exists_members fields ⟨by decide, by simp [fields], h⟩ fun hw => ?_
    exact {
      url := hw.required (.string s.url) (by simp [fields]) rfl
      description := hw.optional .string (by simp [fields]) fun _ _ => ⟨nofun, rfl⟩
      variableValues := hw.map id (by simp [fields]) fun _ _ => rfl
      extensions := hw.others }
  rw [hms, ofValue?_object]
  exact hfields

end Server

/-! ## Operations -/

namespace Operation

/-- What is read of the fields of an operation. -/
structure HasFields (ms : Members) (o : Operation) : Prop where
  operationId : ms.optional "operationId" Value.string? = some o.operationId
  summary : ms.optional "summary" Value.string? = some o.summary
  description : ms.optional "description" Value.string? = some o.description
  tags : ms.withDefault "tags" [] Value.strings? = some o.tags
  parameters :
    ms.withDefault "parameters" [] (Value.list? Parameter.Entry.ofValue?) = some o.parameters
  requestBody : ms.optional "requestBody" Value.self? = some o.requestBody
  responses : ms.optional "responses" Value.self? = some o.responses
  callbacks : ms.optional "callbacks" (Value.map? Value.self?) = some o.callbacks
  deprecated : ms.withDefault "deprecated" false Value.bool? = some o.deprecated
  security : ms.optional "security" Value.items? = some o.security
  servers : ms.optional "servers" (Value.list? Server.ofValue?) = some o.servers
  extensions : ms.others fields = o.extensions

theorem ofValue?_object {ms : Members} {o : Operation} :
    ofValue? (.object ms) = some o ↔ HasFields ms o := by
  simp only [ofValue?, Value.members?, bind, Option.bind_some, Option.bind_eq_some_iff]
  constructor
  · rintro ⟨_, hoperationId, _, hsummary, _, hdescription, _, htags, _, hparameters,
      _, hrequestBody, _, hresponses, _, hcallbacks, _, hdeprecated, _, hsecurity, _, hservers, h⟩
    cases h
    exact ⟨hoperationId, hsummary, hdescription, htags, hparameters, hrequestBody, hresponses,
      hcallbacks, hdeprecated, hsecurity, hservers, rfl⟩
  · intro h
    refine ⟨_, h.operationId, _, h.summary, _, h.description, _, h.tags, _, h.parameters,
      _, h.requestBody, _, h.responses, _, h.callbacks, _, h.deprecated, _, h.security,
      _, h.servers, ?_⟩
    rw [h.extensions]
    rfl

/-- What holds of an operation that was read: its extensions are under keys of their own, no part
that is kept as it is is null, and its parameters and servers were read. -/
structure WellFormed (o : Operation) : Prop where
  apart : Apart fields o.extensions
  requestBody : o.requestBody ≠ some .null
  responses : o.responses ≠ some .null
  parameters : ∀ e ∈ o.parameters, e.WellFormed
  servers : ∀ ss ∈ o.servers, ∀ s ∈ ss, s.WellFormed

theorem wellFormed_of_ofValue? {v : Value} (hv : v.DistinctKeys) {o : Operation}
    (h : ofValue? v = some o) : o.WellFormed := by
  obtain ⟨ms, hms, -⟩ := Option.bind_eq_some_iff.mp h
  obtain rfl := Value.members?_eq_some_iff.mp hms
  have hfields := ofValue?_object.mp h
  exact {
    apart := hfields.extensions ▸ apart_others ms fields
    requestBody := ne_null_of_optional hfields.requestBody
    responses := ne_null_of_optional hfields.responses
    parameters := Parameter.Entry.wellFormed_of_withDefault hv hfields.parameters
    servers := fun ss hss s hs => by
      obtain ⟨u, -, -, hu⟩ := exists_of_optional (hss ▸ hfields.servers)
      obtain ⟨_, rfl, _, -, hread⟩ := Value.exists_item_of_list? hu hs
      exact Server.wellFormed_of_ofValue? hread }

theorem WellFormed.ofValue?_toValue {o : Operation} (h : o.WellFormed) :
    ofValue? o.toValue = some o := by
  obtain ⟨ms, hms, hfields⟩ : ∃ ms, o.toValue = .object ms ∧ HasFields ms o := by
    refine Written.exists_members fields ⟨by decide, by simp [fields], h.apart⟩
      fun hw => ?_
    exact {
      operationId := hw.optional .string (by simp [fields]) fun _ _ => ⟨nofun, rfl⟩
      summary := hw.optional .string (by simp [fields]) fun _ _ => ⟨nofun, rfl⟩
      description := hw.optional .string (by simp [fields]) fun _ _ => ⟨nofun, rfl⟩
      tags := by
        rw [Value.strings?_eq]
        exact hw.list .string (by simp [fields]) fun _ _ => rfl
      parameters := hw.list Parameter.Entry.toValue (by simp [fields])
        fun e he => (h.parameters e he).ofValue?_toValue
      requestBody := hw.optional id (by simp [fields])
        fun v hv => ⟨fun hnull => h.requestBody (hnull ▸ hv), rfl⟩
      responses := hw.optional id (by simp [fields])
        fun v hv => ⟨fun hnull => h.responses (hnull ▸ hv), rfl⟩
      callbacks := hw.optional .ofMap (by simp [fields]) fun m _ => ⟨nofun, Value.map?_ofMap m⟩
      deprecated := hw.withDefault (.bool o.deprecated) (by simp [fields]) rfl
      security := hw.optional .array (by simp [fields]) fun _ _ => ⟨nofun, rfl⟩
      servers := hw.optional (fun ss => .array (ss.map Server.toValue)) (by simp [fields])
        fun ss hss => ⟨nofun, Value.list?_map fun s hs => (h.servers ss hss s hs).ofValue?_toValue⟩
      extensions := hw.others }
  rw [hms, ofValue?_object]
  exact hfields

end Operation

end OpenApi
