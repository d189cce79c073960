import OpenApi.Parameter.Resolved
import OpenApi.Proofs.Result

/-!
# Accepted parameters

A definition is checked when it is resolved, and its settings and shape once more when a value is
encoded. `Resolved.Accepted` is what the first check leaves for the second.

* `accepted_of_resolve`: resolved definitions are accepted;
* `Resolved.Accepted.check_encoding`: the settings of an accepted parameter are never refused;
* `encode_resolved_eq_error_iff`: the values of a resolved parameter that cannot be encoded.
-/

namespace OpenApi

open Json

/-! ## Shapes of types -/

namespace Shape

variable {types : TypeSet}

/-- `object` is the only type, `null` aside. -/
def IsObjectOnly (types : TypeSet) : Prop :=
  ∀ name, (name ∈ types.names ∧ name ≠ "null") ↔ name = "object"

theorem ofTypes_eq_object_iff : ofTypes types = .object ↔ IsObjectOnly types := by
  have hmem : ∀ name, name ∈ types.names.filter (· != "null") ↔
      name ∈ types.names ∧ name ≠ "null" := by simp
  have hnodup : (types.names.filter (· != "null")).Nodup := types.nodup.filter _
  simp only [IsObjectOnly, ← hmem, ofTypes]
  generalize types.names.filter (· != "null") = kept at hnodup
  match kept, hnodup with
  | [], _ => simp
  | [name], _ =>
    constructor
    · intro h other
      have hname : name = "object" := by grind
      rw [hname, List.mem_singleton]
    · intro h
      have hname : name = "object" := (h name).mp (by simp)
      simp [hname]
  | first :: second :: rest, hnodup =>
    have hne : first ≠ second := by simp_all
    constructor
    · simp
    · intro h
      have hfirst : first = "object" := (h first).mp (by simp)
      have hsecond : second = "object" := (h second).mp (by simp)
      exact absurd (hfirst.trans hsecond.symm) hne

theorem isEmpty_eq_false_of_isObjectOnly (h : IsObjectOnly types) : types.isEmpty = false := by
  have hmem : "object" ∈ types.names := ((h "object").mpr rfl).1
  rw [TypeSet.isEmpty, List.isEmpty_eq_false_iff]
  exact List.ne_nil_of_mem hmem

theorem ofTypes_of_isStringOnly (h : Parameter.isStringOnly types) : ofTypes types = .scalar := by
  rw [Parameter.isStringOnly, beq_iff_eq] at h
  rw [ofTypes, h]
  rfl

theorem ofValue_eq_object_iff (value : Value) :
    ofValue value = .object ↔ value.members? ≠ none := by
  cases value <;> simp [ofValue, Value.members?]

end Shape

namespace Parameter

/-! ## Checks of a definition -/

theorem checkStyle_eq_ok_iff {location : Location} {style : Style} :
    checkStyle location style = .ok () ↔ style ∈ location.styles := by
  rw [checkStyle]
  split <;> simp_all

theorem checkExplode_eq_ok_iff {style : Style} {explode : Bool} :
    checkExplode style explode = .ok () ↔ (explode = true → style.isDelimited = false) := by
  rw [checkExplode]
  cases explode <;> cases style.isDelimited <;> simp

theorem checkTypes_eq_ok_iff {location : Location} {style : Style} {types : TypeSet} :
    checkTypes location style types = .ok () ↔
      (style = .deepObject → types.isEmpty = false → Shape.ofTypes types = .object) ∧
        (location = .querystring → types.isEmpty = false → isStringOnly types = true) := by
  rw [checkTypes]
  split
  next hdeep => simp_all
  next hdeep =>
    split <;> simp_all

namespace Resolved

/-- The style is one of the location's and goes with `explode`, and the types that are known fit the
style and the location. -/
structure Accepted (p : Resolved) : Prop where
  style : p.style ∈ p.location.styles
  explode : p.explode = true → p.style.isDelimited = false
  deepObject : p.style = .deepObject → p.types.isEmpty = false → Shape.ofTypes p.types = .object
  querystring : p.location = .querystring → p.types.isEmpty = false → isStringOnly p.types = true

end Resolved

variable {d : Definition} {c : Components} {p : Resolved}

theorem Style.defaultExplode_of_isDelimited {style : Style} (h : style.isDelimited = true) :
    style.defaultExplode = false := by
  cases style <;> first | rfl | cases h

theorem resolveFields_of_resolve (h : d.resolve c = .ok p) : d.resolveFields c = .ok p := by
  rw [Definition.resolve] at h
  cases hd : d.resolveFields c with
  | ok q => rw [hd] at h; cases h; rfl
  | error fault => rw [hd] at h; cases h

theorem accepted_of_resolve (h : d.resolve c = .ok p) : p.Accepted := by
  obtain ⟨payload, -, h⟩ := bind_eq_ok_iff.mp (resolveFields_of_resolve h)
  obtain ⟨-, -, h⟩ := bind_eq_ok_iff.mp h
  obtain ⟨⟨⟩, hstyle, h⟩ := bind_eq_ok_iff.mp h
  obtain ⟨⟨⟩, hexplode, h⟩ := bind_eq_ok_iff.mp h
  obtain ⟨⟨⟩, htypes, h⟩ := bind_eq_ok_iff.mp h
  obtain ⟨hdeep, hquerystring⟩ := checkTypes_eq_ok_iff.mp htypes
  obtain rfl := Except.ok.inj h
  refine ⟨checkStyle_eq_ok_iff.mp hstyle, fun he => ?_, hdeep, hquerystring⟩
  cases hd : d.explode with
  | some explode =>
    rw [hd] at he hexplode
    exact checkExplode_eq_ok_iff.mp hexplode he
  | none =>
    rw [hd] at he
    exact Bool.eq_false_iff.mpr fun hs => by simp_all [Style.defaultExplode_of_isDelimited]

namespace Resolved

theorem Accepted.check_encoding (h : p.Accepted) : p.encoding.check = .ok () := by
  have hstyle : checkStyle p.encoding.location p.encoding.resolvedStyle = .ok () :=
    checkStyle_eq_ok_iff.mpr h.style
  have hexplode : checkExplode p.encoding.resolvedStyle p.encoding.resolvedExplode = .ok () :=
    checkExplode_eq_ok_iff.mpr h.explode
  rw [Encoding.check, hstyle]
  exact hexplode

end Resolved

/-! ## Values that cannot be encoded -/

theorem Parts.collect_eq_error_iff (escape : String → String) {shape : Shape} {value : Value} :
    (∃ fault, collect escape shape value = .error fault) ↔
      shape = .object ∧ value.members? = none ∧ value ≠ .null := by
  cases shape <;> cases value <;> simp [collect, Value.members?]

theorem querystringText_eq_error_iff {shape : Shape} {value : Value} :
    (∃ fault, querystringText shape value = .error fault) ↔
      (shape = .scalar → value.string? = none ∧ value ≠ .null) := by
  cases shape <;> cases value <;> simp [querystringText, Value.string?]

theorem Encoding.encode_eq_error_iff {e : Encoding} {shape : Shape} {name : String}
    {value : Value} :
    (∃ invalid, e.encode shape name value = .error invalid) ↔
      ∃ fault, e.textOf shape name value = .error fault := by
  rw [encode]
  cases e.textOf shape name value <;> simp

/-- Once the settings have been checked, a value is refused for its shape alone. -/
theorem Encoding.textOf_eq_error_iff {e : Encoding} {shape : Shape} {name : String} {value : Value}
    (hcheck : e.check = .ok ()) :
    (∃ fault, e.textOf shape name value = .error fault) ↔
      if e.location = .querystring then shape = .scalar → value.string? = none ∧ value ≠ .null
      else (e.resolvedStyle = .deepObject ∧ shape ≠ .object) ∨
        (shape = .object ∧ value.members? = none ∧ value ≠ .null) := by
  rw [textOf, hcheck, ← querystringText_eq_error_iff,
    ← Parts.collect_eq_error_iff (Escaping.of e.location e.resolvedStyle e.allowReserved).apply]
  simp only [bind, Except.bind]
  split
  next => rfl
  next =>
    split
    next hdeep => simp [hdeep]
    next hdeep =>
      simp only [hdeep, false_or]
      cases Parts.collect (Escaping.of e.location e.resolvedStyle e.allowReserved).apply shape value
        <;> simp [pure, Except.pure]

namespace Resolved

/-- The values that a parameter cannot carry. -/
inductive Refuses (p : Resolved) (value : Value) : Prop where
  /-- The types admit objects alone, and the value is none. -/
  | object (location : p.location ≠ .querystring) (types : Shape.IsObjectOnly p.types)
      (noObject : value.members? = none) (notNull : value ≠ .null)
  /-- Nothing is known of the types, and the style lays out objects alone. -/
  | deepObject (location : p.location = .query) (style : p.style = .deepObject)
      (types : p.types = .empty) (noObject : value.members? = none)
  /-- The whole query is a text. -/
  | querystring (location : p.location = .querystring) (noText : value.string? = none)
      (notNull : value ≠ .null)

/-! In each of the next lemmas no types leave the value its own shape, and known types fit. -/

theorem Accepted.querystring_shape (h : p.Accepted) (hquery : p.location = .querystring)
    {value : Value} :
    (p.shapeFor value = .scalar → value.string? = none ∧ value ≠ .null) ↔
      value.string? = none ∧ value ≠ .null := by
  rw [shapeFor]
  split
  next => cases value <;> simp [Shape.ofValue, Value.string?]
  next htypes =>
    have hstring := h.querystring hquery (Bool.eq_false_iff.mpr htypes)
    simp [Shape.ofTypes_of_isStringOnly hstring]

theorem Accepted.deepObject_shape (h : p.Accepted) (value : Value) :
    (p.style = .deepObject ∧ p.shapeFor value ≠ .object) ↔
      p.style = .deepObject ∧ p.types = .empty ∧ value.members? = none := by
  rw [shapeFor]
  split
  next htypes => simp [TypeSet.isEmpty_iff.mp htypes, Shape.ofValue_eq_object_iff]
  next htypes =>
    have hne : p.types ≠ .empty := fun he => htypes (TypeSet.isEmpty_iff.mpr he)
    have hobject := fun hdeep => h.deepObject hdeep (Bool.eq_false_iff.mpr htypes)
    simpa [hne] using hobject

theorem object_shape (p : Resolved) (value : Value) :
    (p.shapeFor value = .object ∧ value.members? = none ∧ value ≠ .null) ↔
      Shape.IsObjectOnly p.types ∧ value.members? = none ∧ value ≠ .null := by
  rw [shapeFor]
  split
  next htypes =>
    have hobject : ¬ Shape.IsObjectOnly p.types := fun hobject =>
      Bool.false_ne_true ((Shape.isEmpty_eq_false_of_isObjectOnly hobject).symm.trans htypes)
    simp only [Shape.ofValue_eq_object_iff, hobject, false_and, iff_false]
    exact fun ⟨hmembers, hnone, _⟩ => hmembers hnone
  next => rw [Shape.ofTypes_eq_object_iff]

theorem Accepted.location_of_deepObject (h : p.Accepted) (hquery : p.location ≠ .querystring)
    (hdeep : p.style = .deepObject) : p.location = .query := by
  have hstyle := h.style
  rw [hdeep] at hstyle
  cases hl : p.location <;> simp_all [Location.styles]

theorem Accepted.encode_eq_error_iff (h : p.Accepted) (value : Value) :
    (∃ invalid, p.encode value = .error invalid) ↔ p.Refuses value := by
  rw [encode, Encoding.encode_eq_error_iff, Encoding.textOf_eq_error_iff h.check_encoding]
  show (if p.location = .querystring then _ else (p.style = .deepObject ∧ _) ∨ _) ↔ _
  split
  next hquery =>
    rw [h.querystring_shape hquery]
    constructor
    · exact fun ⟨htext, hnull⟩ => .querystring hquery htext hnull
    · rintro (⟨hl, -⟩ | ⟨hl, -⟩ | ⟨-, htext, hnull⟩)
      · exact absurd hquery hl
      · rw [hquery] at hl; cases hl
      · exact ⟨htext, hnull⟩
  next hquery =>
    rw [h.deepObject_shape, p.object_shape]
    constructor
    · rintro (⟨hstyle, htypes, hvalue⟩ | ⟨htypes, hvalue, hnull⟩)
      · exact .deepObject (h.location_of_deepObject hquery hstyle) hstyle htypes hvalue
      · exact .object hquery htypes hvalue hnull
    · rintro (⟨-, htypes, hvalue, hnull⟩ | ⟨-, hstyle, htypes, hvalue⟩ | ⟨hl, -⟩)
      · exact .inr ⟨htypes, hvalue, hnull⟩
      · exact .inl ⟨hstyle, htypes, hvalue⟩
      · exact absurd hl hquery

end Resolved

/-- A resolved parameter has settings that pass every check of the encoder, and the values that it
does not encode are those that do not fit what is known of its types. -/
theorem encode_resolved_eq_error_iff (h : d.resolve c = .ok p) (value : Value) :
    p.encoding.check = .ok () ∧
      ((∃ invalid, p.encode value = .error invalid) ↔ p.Refuses value) :=
  ⟨(accepted_of_resolve h).check_encoding, (accepted_of_resolve h).encode_eq_error_iff value⟩

/-- The definition of a parameter whose values are objects. -/
def filter : Definition where
  name := "filter"
  location := .query
  schema := some (.object [("type", .array [.string "object", .string "null"])])

/-- A list is refused where the types are `object` and `null`. -/
theorem encode_resolved_eq_error_iff_list :
    ∃ p, filter.resolve {} = .ok p ∧ p.encoding.check = .ok () ∧
      ∃ invalid, p.encode (.array []) = .error invalid := by
  obtain ⟨p, hp, hlocation, htypes⟩ : ∃ p, filter.resolve {} = .ok p ∧ p.location = .query ∧
      p.types.names = ["object", "null"] := ⟨_, rfl, rfl, by decide +kernel⟩
  obtain ⟨hcheck, hrefuses⟩ := encode_resolved_eq_error_iff hp (.array [])
  have htypes : Shape.IsObjectOnly p.types := fun name => by
    rw [htypes]
    constructor
    · rintro ⟨hmem, hnull⟩
      simpa [hnull] using hmem
    · rintro rfl
      decide
  exact ⟨p, hp, hcheck, hrefuses.mpr (.object (by simp [hlocation]) htypes rfl (by simp))⟩

end Parameter

end OpenApi
