import OpenApi.Proofs.Parameter.Listing

/-!
# Refused parameters

Why a list of parameters is refused. References that lead nowhere and schemas of which no type is
known are no reason.

* `Definition.misconfigured_of_resolve`: a definition is refused for what it declares
  (`Definition.Misconfigured`);
* `refused_of_resolveAll`: a list is refused for a definition that one of its entries stands for, or
  for two with one key (`Refused`).
-/

namespace OpenApi.Parameter

open Json

variable {o : Origin} {c : Components} {d : Definition}

/-! ## Definitions -/

namespace Definition

/-- The style of a definition, or that of its location. -/
def resolvedStyle (d : Definition) : Style := d.style.getD d.location.defaultStyle

/-- What a definition may be refused for: settings that exclude each other, or types of its schema
that its style or location excludes. -/
inductive Misconfigured (c : Components) (d : Definition) : Fault → Prop
  | schemaAndContent : d.schema.isSome → d.content.isSome → Misconfigured c d .schemaAndContent
  | contentCount {media : OrderedMap Value} : d.content = some media → media.size ≠ 1 →
    Misconfigured c d .contentCount
  | emptyValue : d.allowEmptyValue = some true → d.location ≠ .query →
    Misconfigured c d .emptyValueNotAllowed
  | style : d.resolvedStyle ∉ d.location.styles →
    Misconfigured c d (.styleNotAllowed d.resolvedStyle d.location)
  | explode : d.explode = some true → d.resolvedStyle.isDelimited →
    Misconfigured c d (.explodeNotAllowed d.resolvedStyle)
  | deepObject {payload : Option Payload} : payloadOf d = .ok payload →
    d.resolvedStyle = .deepObject → typesOf payload c ≠ .empty →
    Shape.ofTypes (typesOf payload c) ≠ .object → Misconfigured c d .deepObjectNeedsObjectSchema
  | querystring {payload : Option Payload} : payloadOf d = .ok payload →
    d.location = .querystring → typesOf payload c ≠ .empty →
    ¬ isStringOnly (typesOf payload c) → Misconfigured c d .querystringNeedsStringSchema

theorem misconfigured_of_payloadOf {fault : Fault} (h : payloadOf d = .error fault) :
    d.Misconfigured c fault := by
  rw [payloadOf] at h
  split at h
  next hschema hcontent =>
    cases h
    exact .schemaAndContent (by rw [hschema]; rfl) (by rw [hcontent]; rfl)
  next => cases h
  next media hschema hcontent =>
    split at h
    next => cases h
    next hsize =>
      cases h
      exact .contentCount hcontent hsize
  next => cases h

theorem misconfigured_of_checkEmptyValue {fault : Fault}
    (h : checkEmptyValue d.location (d.allowEmptyValue.getD false) = .error fault) :
    d.Misconfigured c fault := by
  rw [checkEmptyValue] at h
  split at h
  next hallowed =>
    cases h
    refine .emptyValue ?_ hallowed.2
    cases hd : d.allowEmptyValue with
    | none => simp [hd] at hallowed
    | some allowed => simp_all
  next => cases h

theorem misconfigured_of_checkStyle {fault : Fault}
    (h : checkStyle d.location d.resolvedStyle = .error fault) : d.Misconfigured c fault := by
  have hstyle : d.resolvedStyle ∉ d.location.styles := fun hmem => by
    rw [checkStyle_eq_ok_iff.mpr hmem] at h
    cases h
  rw [checkStyle] at h
  split at h
  next => cases h
  next =>
    cases h
    exact .style hstyle

theorem misconfigured_of_checkExplode {fault : Fault}
    (h : checkExplode d.resolvedStyle (d.explode.getD false) = .error fault) :
    d.Misconfigured c fault := by
  rw [checkExplode] at h
  split at h
  next hexplode =>
    cases h
    simp only [Bool.and_eq_true] at hexplode
    refine .explode ?_ hexplode.2
    cases hd : d.explode with
    | none => simp [hd] at hexplode
    | some explode => simp_all
  next => cases h

theorem misconfigured_of_checkTypes {fault : Fault} {payload : Option Payload}
    (hpayload : payloadOf d = .ok payload)
    (h : checkTypes d.location d.resolvedStyle (typesOf payload c) = .error fault) :
    d.Misconfigured c fault := by
  have hempty {types : TypeSet} (ht : (!types.isEmpty) = true) : types ≠ .empty := fun he => by
    rw [he] at ht
    cases ht
  rw [checkTypes] at h
  split at h
  next hdeep =>
    cases h
    exact .deepObject hpayload hdeep.1 (hempty hdeep.2.1) hdeep.2.2
  next =>
    split at h
    next hquery =>
      cases h
      exact .querystring hpayload hquery.1 (hempty hquery.2.1) (by simpa using hquery.2.2)
    next => cases h

/-- The first of the checks that fails is the reason. -/
theorem misconfigured_of_resolveFields {fault : Fault} (h : d.resolveFields c = .error fault) :
    d.Misconfigured c fault := by
  rcases bind_eq_error_iff.mp h with h | ⟨payload, hpayload, h⟩
  · exact misconfigured_of_payloadOf h
  rcases bind_eq_error_iff.mp h with h | ⟨-, -, h⟩
  · exact misconfigured_of_checkEmptyValue h
  rcases bind_eq_error_iff.mp h with h | ⟨-, -, h⟩
  · exact misconfigured_of_checkStyle h
  rcases bind_eq_error_iff.mp h with h | ⟨-, -, h⟩
  · exact misconfigured_of_checkExplode h
  rcases bind_eq_error_iff.mp h with h | ⟨-, -, h⟩
  · exact misconfigured_of_checkTypes hpayload h
  cases h

theorem misconfigured_of_resolve {e : Invalid} (h : d.resolve c = .error e) :
    ∃ fault, e = { name := d.name, fault } ∧ d.Misconfigured c fault := by
  rw [resolve] at h
  cases hd : d.resolveFields c with
  | ok p =>
    rw [hd] at h
    cases h
  | error fault =>
    rw [hd] at h
    exact ⟨fault, (Except.error.inj h).symm, misconfigured_of_resolveFields hd⟩

end Definition

/-! ## Lists -/

/-- What a list may be refused for. Entries that stand for no definition have no part in it. -/
inductive Refused (o : Origin) (entries : List Entry) : Invalid → Prop
  /-- Another definition before has its key. -/
  | declaredTwice {before after : List Definition} {d : Definition} :
    definitions o entries = before ++ d :: after → d.key ∈ before.map Definition.key →
    Refused o entries { name := d.name, fault := .declaredTwice d.location }
  /-- A definition that an entry stands for is refused for itself. -/
  | misconfigured {d : Definition} {entry : Entry} {fault : Fault} : entry ∈ entries →
    entry.definition? o = some d → d.Misconfigured o.components fault →
    Refused o entries { name := d.name, fault }

theorem exists_entry_of_mem_definitions {entries : List Entry} (h : d ∈ definitions o entries) :
    ∃ entry ∈ entries, entry.definition? o = some d :=
  List.mem_filterMap.mp (List.mem_filter.mp h).1

theorem refused_of_resolveAll {entries : List Entry} {e : Invalid}
    (h : resolveAll o entries = .error e) : Refused o entries e := by
  obtain ⟨before, d, after, hds, -, hwrong⟩ := resolveAfter_eq_error_iff.mp h
  rw [List.append_nil] at hwrong
  rcases hwrong with ⟨hkey, rfl⟩ | ⟨-, hd⟩
  · exact .declaredTwice hds hkey
  · have hmem : d ∈ definitions o entries := by
      rw [hds]
      exact List.mem_append_right _ List.mem_cons_self
    obtain ⟨entry, hentry, hdefinition⟩ := exists_entry_of_mem_definitions hmem
    obtain ⟨fault, rfl, hfault⟩ := Definition.misconfigured_of_resolve hd
    exact .misconfigured hentry hdefinition hfault

end OpenApi.Parameter
