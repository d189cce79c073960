import Mathlib.Data.Finset.Card
import OpenApi.Proofs.Schema.Plain
import OpenApi.Schema.Inference

/-!
# Types of enumerations

An enumeration has the least type of which all its values but null are, an integer being a number,
and `null` if it is among them.

* `refines_unify?_iff`: two types are unified to the least type above both, if there is any;
* `refines_commonType?_iff`, `commonType?_cases`: one after the other, all types of the values are
  unified to the least type above them;
* `enumerationTypes_congr`: values in another order, or repeated, make the same types;
* `enumerationTypes_leastCommon`: the types of an enumeration by the set of its values' types;
* `enumerationTypes_eq`: they are the types that all values share.
-/

namespace OpenApi.Schema

open Json

/-! ## The order of types -/

/-- Whether the values of a type are of another: integers are numbers. -/
def Refines (a b : String) : Prop := a = b ∨ (a = "integer" ∧ b = "number")

namespace Refines

variable {a b c : String}

theorem refl (a : String) : Refines a a := .inl rfl

theorem integer : Refines "integer" "number" := .inr ⟨rfl, rfl⟩

theorem antisymm (hab : Refines a b) (hba : Refines b a) : a = b := by
  rcases hab with hab | ⟨rfl, rfl⟩
  · exact hab
  · exact (hba.elim id And.left).symm

theorem trans (hab : Refines a b) (hbc : Refines b c) : Refines a c := by
  rcases hab with rfl | ⟨rfl, rfl⟩
  · exact hbc
  · rcases hbc with rfl | ⟨hb, -⟩
    · exact integer
    · simp at hb

end Refines

/-- The least type of which all values of some types are. -/
structure LeastCommon (types : Finset String) (t : String) : Prop where
  refines : ∀ s ∈ types, Refines s t
  least : ∀ u, (∀ s ∈ types, Refines s u) → Refines t u

/-- Whether a type is one of the two types of numbers. -/
def isNumeric (type : String) : Bool := type == "integer" || type == "number"

section

variable {types : Finset String} {t t' u : String}

/-- Types refine one that they all are, or they are types of numbers and refine `number`. -/
theorem forall_refines_iff :
    (∀ s ∈ types, Refines s u) ↔
      (∀ s ∈ types, s = u) ∨ (u = "number" ∧ ∀ s ∈ types, isNumeric s) := by
  constructor
  · intro h
    by_cases hu : u = "number"
    · subst hu
      refine .inr ⟨rfl, fun s hs => ?_⟩
      rcases h s hs with rfl | ⟨rfl, -⟩ <;> rfl
    · exact .inl fun s hs => (h s hs).resolve_right fun hs => hu hs.2
  · rintro (h | ⟨rfl, h⟩) s hs
    · exact .inl (h s hs)
    · have hs := h s hs
      simp only [isNumeric, Bool.or_eq_true, beq_iff_eq] at hs
      rcases hs with rfl | rfl
      · exact .integer
      · exact .refl _

/-- The types of numbers are two. -/
theorem not_forall_isNumeric (hcard : 2 ≤ types.card) (hne : types ≠ {"integer", "number"}) :
    ¬ ∀ s ∈ types, isNumeric s := by
  intro hall
  have hsubset : types ⊆ {"integer", "number"} := fun s hs => by
    simpa [isNumeric] using hall s hs
  exact hne (Finset.eq_of_subset_of_card_le hsubset (Finset.card_le_two.trans hcard))

/-- Different types that are not all types of numbers have no common type. -/
theorem not_exists_forall_refines (hne : types.Nontrivial) (h : ¬ ∀ s ∈ types, isNumeric s) :
    ¬ ∃ u, ∀ s ∈ types, Refines s u := by
  rintro ⟨u, hu⟩
  obtain ⟨a, ha, b, hb, hab⟩ := hne
  rcases forall_refines_iff.mp hu with hall | ⟨-, hnumeric⟩
  · exact hab ((hall a ha).trans (hall b hb).symm)
  · exact h hnumeric

namespace LeastCommon

theorem of_forall_iff (h : ∀ u, Refines t u ↔ ∀ s ∈ types, Refines s u) : LeastCommon types t :=
  ⟨(h t).mp (.refl t), fun u => (h u).mpr⟩

theorem unique (h : LeastCommon types t) (h' : LeastCommon types t') : t = t' :=
  (h.least t' h'.refines).antisymm (h'.least t h.refines)

theorem nonempty (h : LeastCommon types t) : types.Nonempty := by
  by_contra hempty
  rw [Finset.not_nonempty_iff_eq_empty] at hempty
  subst hempty
  -- Nothing is both a text and a truth value.
  have hstring : Refines t "string" := h.least _ (by simp)
  have hboolean : Refines t "boolean" := h.least _ (by simp)
  rcases hstring with rfl | ⟨-, hs⟩
  · rcases hboolean with hb | ⟨-, hb⟩ <;> simp at hb
  · simp at hs

/-- The least common type is one of the types, or `number`. -/
theorem mem_or_eq (h : LeastCommon types t) : t ∈ types ∨ t = "number" := by
  obtain ⟨s, hs⟩ := h.nonempty
  rcases h.refines s hs with rfl | ⟨-, ht⟩
  · exact .inl hs
  · exact .inr ht

theorem of_forall_eq (ht : t ∈ types) (h : ∀ s ∈ types, s = t) : LeastCommon types t :=
  ⟨fun s hs => .inl (h s hs), fun _ hu => hu t ht⟩

/-- Different types of numbers have no common type but `number`. -/
theorem of_numeric (hne : types.Nontrivial) (h : ∀ s ∈ types, isNumeric s) :
    LeastCommon types "number" := by
  refine ⟨forall_refines_iff.mpr (.inr ⟨rfl, h⟩), fun u hu => ?_⟩
  obtain ⟨a, ha, b, hb, hab⟩ := hne
  rcases forall_refines_iff.mp hu with hall | ⟨rfl, -⟩
  · exact absurd ((hall a ha).trans (hall b hb).symm) hab
  · exact .refl _

theorem singleton (t : String) : LeastCommon {t} t :=
  of_forall_eq (Finset.mem_singleton_self t) fun _ => Finset.mem_singleton.mp

theorem numbers : LeastCommon {"integer", "number"} "number" :=
  of_numeric ⟨"integer", by simp, "number", by simp, by simp⟩ (by simp [isNumeric])

end LeastCommon

end

/-! ## The common type of values -/

/-- The types of values: an integer is a number that is written as one. -/
inductive HasType : Value → String → Prop
  | null : HasType .null "null"
  | boolean {b : Bool} : HasType (.bool b) "boolean"
  | integer {n : Int} : HasType (.number (.integer n)) "integer"
  | number {x : Binary64} : HasType (.number (.double x)) "number"
  | string {text : String} : HasType (.string text) "string"
  | array {items : List Value} : HasType (.array items) "array"
  | object {ms : List (String × Value)} : HasType (.object ms) "object"

theorem hasType_jsonType (v : Value) : HasType v (jsonType v) := by
  cases v with
  | number n => cases n <;> constructor
  | _ => constructor

theorem jsonType_eq_iff {v : Value} {t : String} : jsonType v = t ↔ HasType v t := by
  constructor
  · rintro rfl
    exact hasType_jsonType v
  · intro h
    cases h <;> rfl

/-- The types of values other than null. -/
def kinds (values : List Value) : List String := (values.map jsonType).filter (· != "null")

theorem kinds_cons (v : Value) (vs : List Value) :
    kinds (v :: vs) = if jsonType v = "null" then kinds vs else jsonType v :: kinds vs := by
  rw [kinds, List.map_cons, List.filter_cons]
  by_cases h : jsonType v = "null"
  · simp [h, kinds]
  · simp [h, kinds]

/-- The types of the values that are not null, as a set. -/
def kindSet (values : List Value) : Finset String :=
  ((values.filter (!·.isNull)).map jsonType).toFinset

theorem jsonType_beq_null (v : Value) : (jsonType v == "null") = v.isNull := by
  cases v with
  | number n => cases h : n.isInteger <;> simp [jsonType, h, Value.isNull]
  | _ => rfl

theorem kindSet_eq (values : List Value) : kindSet values = (kinds values).toFinset := by
  rw [kindSet, kinds, List.filter_map]
  congr 3
  funext v
  simp [← jsonType_beq_null, bne]

/-- What two types are unified to refines what both refine. -/
theorem refines_unify?_iff {a b u : String} :
    (∃ c, unify? a b = some c ∧ Refines c u) ↔ Refines a u ∧ Refines b u := by
  rw [unify?]
  split
  next hab =>
    subst hab
    simp
  next hab =>
    split
    next hnumbers =>
      simp only [Option.some.injEq, exists_eq_left']
      rcases hnumbers with ⟨rfl, rfl⟩ | ⟨rfl, rfl⟩
      · exact ⟨fun h => ⟨Refines.integer.trans h, h⟩, And.right⟩
      · exact ⟨fun h => ⟨h, Refines.integer.trans h⟩, And.left⟩
    next hnone =>
      refine iff_of_false (by simp) ?_
      rintro ⟨rfl | ⟨rfl, rfl⟩, rfl | ⟨rfl, hb⟩⟩
      · exact hab rfl
      · exact hnone (.inr ⟨hb, rfl⟩)
      · exact hnone (.inl ⟨rfl, rfl⟩)
      · exact hab rfl

/-- What a type that was found goes on to refines what it and the types of the other values
refine. -/
theorem refines_commonType?_iff {type u : String} {vs : List Value} :
    (∃ c, commonType? (some type) vs = some (some c) ∧ Refines c u) ↔
      Refines type u ∧ ∀ s ∈ kinds vs, Refines s u := by
  induction vs generalizing type with
  | nil => simp [commonType?, kinds]
  | cons v vs ih =>
    rw [commonType?, kinds_cons]
    by_cases hnull : jsonType v = "null"
    · simp only [if_pos hnull, ih]
    · simp only [if_neg hnull, Option.bind_eq_some_iff, List.forall_mem_cons, ← and_assoc,
        ← refines_unify?_iff]
      constructor
      · rintro ⟨c, ⟨other, hunified, hfound⟩, hc⟩
        obtain ⟨hother, hrest⟩ := ih.mp ⟨c, hfound, hc⟩
        exact ⟨⟨other, hunified, hother⟩, hrest⟩
      · rintro ⟨⟨other, hunified, hother⟩, hrest⟩
        obtain ⟨c, hfound, hc⟩ := ih.mpr ⟨hother, hrest⟩
        exact ⟨c, ⟨other, hunified, hfound⟩, hc⟩

/-- A type that was found is not forgotten. -/
theorem commonType?_ne_some_none (type : String) (vs : List Value) :
    commonType? (some type) vs ≠ some none := by
  induction vs generalizing type with
  | nil => simp [commonType?]
  | cons v vs ih =>
    rw [commonType?]
    split
    · exact ih type
    · intro h
      obtain ⟨other, -, h⟩ := Option.bind_eq_some_iff.mp h
      exact ih other h

/-- What is found is the least common type. There are values other than null if there is one, and
without one, nothing is common to their types. -/
theorem commonType?_cases (values : List Value) :
    (commonType? none values = some none ∧ kindSet values = ∅) ∨
      (∃ t, commonType? none values = some (some t) ∧ LeastCommon (kindSet values) t) ∨
      (commonType? none values = none ∧ ¬ ∃ u, ∀ s ∈ kindSet values, Refines s u) := by
  simp only [kindSet_eq]
  induction values with
  | nil => exact .inl ⟨rfl, rfl⟩
  | cons v vs ih =>
    rw [commonType?, kinds_cons]
    by_cases hnull : jsonType v = "null"
    · simpa only [if_pos hnull] using ih
    -- The first type other than null is found first, and goes on to the least common one.
    have hall : ∀ u, (∃ c, commonType? (some (jsonType v)) vs = some (some c) ∧ Refines c u) ↔
        ∀ s ∈ (jsonType v :: kinds vs).toFinset, Refines s u := by
      simp [refines_commonType?_iff]
    simp only [if_neg hnull]
    cases hfound : commonType? (some (jsonType v)) vs with
    | none =>
      refine .inr (.inr ⟨rfl, ?_⟩)
      rintro ⟨u, hu⟩
      obtain ⟨c, hc, -⟩ := (hall u).mpr hu
      rw [hfound] at hc
      cases hc
    | some found =>
      cases found with
      | none => exact absurd hfound (commonType?_ne_some_none _ _)
      | some c =>
        refine .inr (.inl ⟨c, rfl, .of_forall_iff fun u => ?_⟩)
        simpa [hfound] using hall u

/-! ## The types of an enumeration -/

/-- The type of null if it is among the values. -/
def nullTypes (values : List Value) : List String :=
  if values.any Value.isNull then ["null"] else []

section

variable {values values' : List Value} {t : String}

theorem mem_kindSet : t ∈ kindSet values ↔ ∃ v ∈ values, v.isNull = false ∧ jsonType v = t := by
  simp [kindSet, and_assoc]

theorem ne_null_of_mem_kindSet (h : t ∈ kindSet values) : t ≠ "null" := by
  obtain ⟨v, -, hv, rfl⟩ := mem_kindSet.mp h
  rw [← jsonType_beq_null] at hv
  exact beq_eq_false_iff_ne.mp hv

theorem LeastCommon.ne_null (h : LeastCommon (kindSet values) t) : t ≠ "null" := by
  rcases h.mem_or_eq with ht | rfl
  · exact ne_null_of_mem_kindSet ht
  · simp

theorem names_enumerationTypes {found : Option String}
    (h : commonType? none values = some found) (hnull : "null" ∉ found.toList) :
    (enumerationTypes values).names = found.toList ++ nullTypes values := by
  have hany : values.any (jsonType · == "null") = values.any Value.isNull :=
    congrArg values.any (funext jsonType_beq_null)
  have hnodup : (found.toList ++ nullTypes values).Nodup := by
    rw [nullTypes]
    split
    next => exact List.nodup_append_comm.mp (List.nodup_cons.mpr ⟨hnull, Option.toList_nodup _⟩)
    next => simpa using Option.toList_nodup _
  rw [enumerationTypes, h, hany]
  exact TypeSet.names_insertAll (s := .empty) hnodup

/-- The common type comes first, `null` last; without a common type there are no types. -/
theorem names_enumerationTypes_cases (values : List Value) :
    (kindSet values = ∅ ∧ (enumerationTypes values).names = nullTypes values) ∨
      (∃ t, LeastCommon (kindSet values) t ∧
        (enumerationTypes values).names = t :: nullTypes values) ∨
      ((¬ ∃ u, ∀ s ∈ kindSet values, Refines s u) ∧ (enumerationTypes values).names = []) := by
  rcases commonType?_cases values with ⟨hfound, hempty⟩ | ⟨t, hfound, ht⟩ | ⟨hfound, hnone⟩
  · exact .inl ⟨hempty, names_enumerationTypes hfound (by simp)⟩
  · have hnull : "null" ∉ [t] := by simpa [eq_comm] using ht.ne_null
    exact .inr (.inl ⟨t, ht, names_enumerationTypes hfound hnull⟩)
  · refine .inr (.inr ⟨hnone, ?_⟩)
    rw [enumerationTypes, hfound]
    rfl

theorem names_enumerationTypes_of_empty (h : kindSet values = ∅) :
    (enumerationTypes values).names = nullTypes values := by
  rcases names_enumerationTypes_cases values with ⟨-, hnames⟩ | ⟨t, ht, -⟩ | ⟨hnone, -⟩
  · exact hnames
  · exact absurd h ht.nonempty.ne_empty
  · exact absurd ⟨"null", by simp [h]⟩ hnone

theorem names_enumerationTypes_of_leastCommon (h : LeastCommon (kindSet values) t) :
    (enumerationTypes values).names = t :: nullTypes values := by
  rcases names_enumerationTypes_cases values with ⟨hempty, -⟩ | ⟨t', ht', hnames⟩ | ⟨hnone, -⟩
  · exact absurd hempty h.nonempty.ne_empty
  · rw [h.unique ht', hnames]
  · exact absurd ⟨t, h.refines⟩ hnone

theorem names_enumerationTypes_of_not_refines (h : ¬ ∃ u, ∀ s ∈ kindSet values, Refines s u) :
    (enumerationTypes values).names = [] := by
  rcases names_enumerationTypes_cases values with ⟨hempty, -⟩ | ⟨t, ht, -⟩ | ⟨-, hnames⟩
  · exact absurd ⟨"null", by simp [hempty]⟩ h
  · exact absurd ⟨t, ht.refines⟩ h
  · exact hnames

theorem mem_enumerationTypes_iff :
    t ∈ (enumerationTypes values).names ∧ t ≠ "null" ↔ LeastCommon (kindSet values) t := by
  have hnull : t ∈ nullTypes values → t = "null" := by
    rw [nullTypes]
    split <;> simp
  constructor
  · rintro ⟨ht, hne⟩
    rcases names_enumerationTypes_cases values with ⟨-, h⟩ | ⟨t', ht', h⟩ | ⟨-, h⟩
    · exact absurd (hnull (h ▸ ht)) hne
    · rcases List.mem_cons.mp (h ▸ ht) with rfl | ht
      · exact ht'
      · exact absurd (hnull ht) hne
    · rw [h] at ht
      cases ht
  · intro h
    refine ⟨?_, h.ne_null⟩
    rw [names_enumerationTypes_of_leastCommon h]
    exact List.mem_cons_self

/-- Only which values there are counts, not their order or number. -/
theorem enumerationTypes_congr (h : ∀ v, v ∈ values ↔ v ∈ values') :
    enumerationTypes values = enumerationTypes values' := by
  have hkinds : kindSet values = kindSet values' := by
    ext t
    simp only [mem_kindSet, h]
  have hany : values.any Value.isNull = values'.any Value.isNull := by
    rw [Bool.eq_iff_iff]
    simp only [List.any_eq_true, h]
  have hnulls : nullTypes values = nullTypes values' := by rw [nullTypes, hany, nullTypes]
  refine TypeSet.ext ?_
  rcases names_enumerationTypes_cases values with ⟨hempty, hnames⟩ | ⟨t, ht, hnames⟩ |
    ⟨hnone, hnames⟩
  · rw [hnames, hnulls, names_enumerationTypes_of_empty (hkinds ▸ hempty)]
  · rw [hnames, hnulls, names_enumerationTypes_of_leastCommon (hkinds ▸ ht)]
  · rw [hnames, names_enumerationTypes_of_not_refines (hkinds ▸ hnone)]

end

/-- The types of an enumeration, where its values other than null have no type, one type, the two
types of numbers, or two types or more that have nothing in common. The type besides `null` is the
least common one, and neither order nor repetition of the values counts. -/
theorem enumerationTypes_leastCommon (values : List Value) :
    (kindSet values = ∅ → (enumerationTypes values).names = nullTypes values) ∧
      (∀ t, kindSet values = {t} → (enumerationTypes values).names = t :: nullTypes values) ∧
      (kindSet values = {"integer", "number"} →
        (enumerationTypes values).names = "number" :: nullTypes values) ∧
      (2 ≤ (kindSet values).card → kindSet values ≠ {"integer", "number"} →
        (enumerationTypes values).names = []) ∧
      (∀ t, t ∈ (enumerationTypes values).names ∧ t ≠ "null" ↔ LeastCommon (kindSet values) t) ∧
      ∀ values' : List Value, (∀ v, v ∈ values ↔ v ∈ values') →
        enumerationTypes values = enumerationTypes values' := by
  refine ⟨names_enumerationTypes_of_empty, fun t h => ?_, fun h => ?_, fun hcard hne => ?_,
    fun _ => mem_enumerationTypes_iff, fun _ => enumerationTypes_congr⟩
  · exact names_enumerationTypes_of_leastCommon (h ▸ .singleton t)
  · exact names_enumerationTypes_of_leastCommon (h ▸ .numbers)
  · have hdiffer : (kindSet values).Nontrivial := Finset.one_lt_card_iff_nontrivial.mp hcard
    have hnumeric := not_forall_isNumeric hcard hne
    exact names_enumerationTypes_of_not_refines (not_exists_forall_refines hdiffer hnumeric)

/-- Nulls alone; one type; both types of numbers; two types without a common one; and values in
another order, one of them twice. -/
theorem enumerationTypes_leastCommon_mixed :
    (enumerationTypes [.null, .null]).names = ["null"] ∧
      (enumerationTypes [.string "a", .null, .string "b"]).names = ["string", "null"] ∧
      (enumerationTypes [.ofNat 1, .null, .number (.double ⟨0x4004000000000000⟩)]).names =
        ["number", "null"] ∧
      (enumerationTypes [.null, .string "a", .ofNat 1]).names = [] ∧
      enumerationTypes [.ofNat 1, .null, .string "a"] =
        enumerationTypes [.string "a", .ofNat 1, .null, .ofNat 1] := by
  refine ⟨(enumerationTypes_leastCommon _).1 (by decide),
    (enumerationTypes_leastCommon _).2.1 "string" (by decide),
    (enumerationTypes_leastCommon _).2.2.1 (by decide),
    (enumerationTypes_leastCommon _).2.2.2.1 (by decide) (by decide),
    (enumerationTypes_leastCommon _).2.2.2.2.2 _ fun v => ?_⟩
  simp only [List.mem_cons, List.not_mem_nil, or_false]
  tauto

/-! ## Shared types -/

/-- The type that all values but null share, an integer being a number, and `null` if it is among
them; no types if they share none. -/
def sharedTypes (values : List Value) : TypeSet :=
  let nulls := (values.map jsonType).filter (· == "null")
  if ∀ a ∈ kinds values, ∀ b ∈ kinds values, a = b then .ofList (kinds values ++ nulls)
  else if ∀ a ∈ kinds values, isNumeric a then .ofList ("number" :: nulls)
  else .empty

/-- Null counts once, however often it is among the values. -/
theorem ofList_append_nulls (names : List String) (values : List Value) :
    TypeSet.ofList (names ++ (values.map jsonType).filter (· == "null")) =
      .ofList (names ++ nullTypes values) := by
  have hall : ∀ a ∈ (values.map jsonType).filter (· == "null"), a = "null" := fun a ha => by
    simpa using (List.mem_filter.mp ha).2
  rw [TypeSet.ofList, TypeSet.ofList, TypeSet.insertAll_append, TypeSet.insertAll_append, nullTypes]
  split
  next h =>
    refine TypeSet.insertAll_of_forall_eq hall fun hnil => ?_
    obtain ⟨v, hv, hnull⟩ := List.any_eq_true.mp h
    rw [← jsonType_beq_null] at hnull
    exact List.filter_eq_nil_iff.mp hnil _ (List.mem_map_of_mem hv) hnull
  next h =>
    have hnil : (values.map jsonType).filter (· == "null") = [] := by
      refine List.filter_eq_nil_iff.mpr fun a ha hnull => h ?_
      obtain ⟨v, hv, rfl⟩ := List.mem_map.mp ha
      exact List.any_eq_true.mpr ⟨v, hv, jsonType_beq_null v ▸ hnull⟩
    rw [hnil]

/-- The types of an enumeration are those that its values share. -/
theorem enumerationTypes_eq (values : List Value) :
    enumerationTypes values = sharedTypes values := by
  have hmem {a : String} : a ∈ kinds values ↔ a ∈ kindSet values := by
    rw [kindSet_eq, List.mem_toFinset]
  rw [← TypeSet.ofList_names (enumerationTypes values), sharedTypes]
  split
  next hsame =>
    rw [ofList_append_nulls]
    cases hkinds : kinds values with
    | nil =>
      have hempty : kindSet values = ∅ := by rw [kindSet_eq, hkinds, List.toFinset_nil]
      rw [names_enumerationTypes_of_empty hempty, List.nil_append]
    | cons t rest =>
      have ht : t ∈ kinds values := hkinds ▸ List.mem_cons_self
      have hleast : LeastCommon (kindSet values) t :=
        .of_forall_eq (hmem.mp ht) fun s hs => hsame s (hmem.mpr hs) t ht
      have hall : ∀ s ∈ t :: rest, s = t := fun s hs => hsame s (hkinds ▸ hs) t ht
      rw [names_enumerationTypes_of_leastCommon hleast, ← List.singleton_append, TypeSet.ofList,
        TypeSet.ofList, TypeSet.insertAll_append, TypeSet.insertAll_append,
        TypeSet.insertAll_of_forall_eq hall (List.cons_ne_nil t rest)]
  next hdiffer =>
    have hne : (kindSet values).Nontrivial := by
      push Not at hdiffer
      obtain ⟨a, ha, b, hb, hab⟩ := hdiffer
      exact ⟨a, hmem.mp ha, b, hmem.mp hb, hab⟩
    simp only [hmem]
    split
    next hnumeric =>
      rw [names_enumerationTypes_of_leastCommon (.of_numeric hne hnumeric)]
      exact (ofList_append_nulls ["number"] values).symm
    next hnumeric =>
      rw [names_enumerationTypes_of_not_refines (not_exists_forall_refines hne hnumeric)]
      rfl

end OpenApi.Schema
