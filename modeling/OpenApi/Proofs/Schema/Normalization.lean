import OpenApi.Proofs.Schema.Modern

/-!
# Loading newer forms

A schema is loaded as the same tree whether it is written with older or with newer forms.

* `ReadsObject.agrees_newer`, `ReadsObject.slot_newer`: the nodes of an object hold the same;
* `Regular.accepted_modern_iff`: both are accepted, or none;
* `Graph.ofValue_modern`: both are loaded, as the same tree, or none.
-/

namespace OpenApi.Schema

open Json

/-! ## Nodes -/

namespace ReadsObject

section

variable {S S' : Value → NodeId → Prop} {ms : List (String × Value)} {n n' : Node}
  (h : ReadsObject S ms n) (hkeys : (ms.map Prod.fst).Nodup) (hu : Unambiguous ms)
  (hheld : ∀ s : Slot, (s.held ms).keys.Nodup) (h' : ReadsObject S' (newer ms) n')

include h hkeys hu h'

theorem plainValue?_newer {k : Keyword} (hk : k ≠ .type) : n.plainValue? k = n'.plainValue? k := by
  by_cases hp : k.isPlain
  · rw [h.plainValue? hkeys hp hk, h'.plainValue? (nodup_newer hkeys hu) hp hk,
      get?_newer_plain hkeys hu hp hk]
  · cases k with
    | slot => rfl
    | _ => exact absurd rfl hp

theorem extensions_newer : n.extensions = n'.extensions := by
  refine OrderedMap.ext ?_
  rw [h.extensions hkeys, h'.extensions (nodup_newer hkeys hu), filter_extensions_newer]

theorem annotations_newer : n.annotations = n'.annotations := by
  refine OrderedMap.ext ?_
  rw [h.annotations hkeys, h'.annotations (nodup_newer hkeys hu), filter_annotations_newer,
    nullableNote_newer hkeys hu]

theorem custom_newer : n.custom = n'.custom := by
  refine OrderedMap.ext ?_
  rw [h.custom hkeys, h'.custom (nodup_newer hkeys hu), filter_isKept_newer hkeys,
    additionalNote_newer hkeys hu]

include hheld

/-- The subschemas of the two nodes correspond, slot by slot in order. -/
theorem slot_newer {R : NodeId → NodeId → Prop}
    (hR : ∀ u c c', S u c → S' (modern u) c' → R c c') (s : Slot) :
    List.Forall₂ R (n.slot s) (n'.slot s) := by
  have hslot := h.slot_held hkeys hu hheld s
  have hslot' := h'.slot_held (nodup_newer hkeys hu) (unambiguous_newer hkeys hu)
    (fun s => nodup_keys_held_newer hkeys hu (hheld s)) s
  rw [Slot.held_newer hkeys hu, Below.items_each, List.forall₂_map_left_iff] at hslot'
  generalize (s.held ms).items = us, n.slot s = ids, n'.slot s = ids' at hslot hslot'
  induction hslot generalizing ids' with
  | nil =>
    cases hslot'
    exact .nil
  | cons hc _ ih =>
    cases hslot' with
    | cons hc' hslot' => exact .cons (hR _ _ _ hc hc') (ih _ hslot')

theorem types_newer : n.types = n'.types ∧ n.typesInferred = n'.typesInferred := by
  have hboolean := (h.boolean hkeys).trans (h'.boolean (nodup_newer hkeys hu)).symm
  have hplain {k : Keyword} (hk : k ≠ .type) := h.plainValue?_newer hkeys hu h' hk
  have hinferred : n.inferredTypes = n'.inferredTypes :=
    Node.inferredTypes_congr hboolean (fun _ hk => hplain hk) fun s =>
      (h.slot_newer hkeys hu hheld h' (R := fun _ _ => True) (fun _ _ _ _ _ => trivial) s).length_eq
  have htypes := h.types hkeys
  have htypes' := h'.types (nodup_newer hkeys hu)
  obtain ⟨htext, -⟩ := Node.plain_ext fun _ => hplain
  rw [shownTypes_newer hkeys hu, ← hinferred, ← htext, ← htypes] at htypes'
  exact Prod.mk.inj htypes'.symm

theorem agrees_newer : n.Agrees n' := by
  obtain ⟨htext, hnumber, hbound, hcount, henumeration, hconstant, huniqueItems, hrequired⟩ :=
    Node.plain_ext fun _ => h.plainValue?_newer hkeys hu h'
  obtain ⟨htypes, hinferred⟩ := h.types_newer hkeys hu hheld h'
  have hheld' (k : MapKeyword) : ((Slot.map k).held (newer ms)).keys.Nodup :=
    nodup_keys_held_newer hkeys hu (hheld (.map k))
  exact {
    boolean := (h.boolean hkeys).trans (h'.boolean (nodup_newer hkeys hu)).symm
    text := htext
    types := htypes
    typesInferred := hinferred
    enumeration := henumeration
    constant := hconstant
    number := hnumber
    bound := hbound
    count := hcount
    uniqueItems := huniqueItems
    required := hrequired
    keys := fun k => by
      have hk' := (h'.map_held (nodup_newer hkeys hu) (unambiguous_newer hkeys hu) (hheld' k)).1
      rw [(h.map_held hkeys hu (hheld (.map k))).1, hk', Slot.held_newer hkeys hu, Below.keys_each]
    annotations := fun _ => by rw [h.annotations_newer hkeys hu h']
    extensions := fun _ => by rw [h.extensions_newer hkeys hu h']
    custom := fun _ => by rw [h.custom_newer hkeys hu h'] }

end

end ReadsObject

/-! ## Trees -/

section

variable {v : Value}

/-- A value and its newer form are stored as the same tree. -/
theorem Regular.sameTree_modern {g g' : Graph} {id id' : NodeId} (h : Regular v)
    (hs : g.Stores v id) (hs' : g'.Stores (Schema.modern v) id') : SameTree g g' id id' := by
  induction h generalizing id id' with
  | @other v hv =>
    cases v with
    | bool b =>
      refine .node hs.bool (Graph.Stores.bool hs') (.refl _) fun s => ?_
      cases s <;> exact .nil
    | object => cases hv
    | _ => simpa [isSchema] using hs.isSchema
  | @object ms hkeys hu hheld _ ih =>
    rw [modern_object] at hs'
    obtain ⟨n, hn, hr⟩ := hs.object
    obtain ⟨n', hn', hr'⟩ := hs'.object
    -- Every number stands for a subschema with the tree of its newer form.
    have hsame : ReadsObject
        (fun u c => ∀ c', g'.Stores (Schema.modern u) c' → SameTree g g' c c') ms n :=
      hr.imp_holds hkeys fun u hu c hc c' hc' => ih u hu hc hc'
    exact .node hn hn' (hr.agrees_newer hkeys hu hheld hr') fun s =>
      hsame.slot_newer hkeys hu hheld hr' (fun _ _ c' hc hc' => hc c' hc') s

theorem Regular.accepted_modern_iff (h : Regular v) :
    Accepted (Schema.modern v) ↔ Accepted v := by
  induction h with
  | @other v hv =>
    cases v with
    | object => cases hv
    | _ => rfl
  | @object ms hkeys hu hheld hsub ih =>
    have hregular : Regular (.object ms) := .object hkeys hu hheld hsub
    have hregular' := hregular.modern
    rw [modern_object] at hregular' ⊢
    rw [accepted_object_iff hregular, accepted_object_iff hregular']
    constructor
    · exact fun ha u hu => (ih u hu).mp (ha _ (holds_newer_iff.mpr ⟨u, hu, rfl⟩))
    · intro ha u' hu'
      obtain ⟨u, hu, rfl⟩ := holds_newer_iff.mp hu'
      exact (ih u hu).mpr (ha u hu)

namespace Graph

theorem accepted_iff_ofValue (h : Regular v) : Accepted v ↔ ∃ g, ofValue v = .ok g := by
  refine ⟨ofValue_of_accepted, fun ⟨g, hg⟩ => ?_⟩
  obtain ⟨_, _, -, -, hl, -⟩ := loads_of_ofValue hg
  exact h.accepted hl

/-- A schema is loaded if it is loaded with newer forms in place of older ones, and as the same
tree. -/
theorem ofValue_modern (hkeys : v.DistinctKeys)
    (hc : ∀ ms, SchemaAt v (.object ms) → Unambiguous ms) :
    ((∃ g, ofValue v = .ok g) ↔ ∃ g', ofValue (modern v) = .ok g') ∧
    ∀ g g', ofValue v = .ok g → ofValue (modern v) = .ok g' →
      ∃ root root', g.root? = some root ∧ g'.root? = some root' ∧ SameTree g g' root root' := by
  have hregular := regular_of_distinctKeys hkeys hc
  constructor
  · rw [← accepted_iff_ofValue hregular, ← accepted_iff_ofValue hregular.modern,
      hregular.accepted_modern_iff]
  · intro g g' hg hg'
    obtain ⟨root, hroot, -, hs⟩ := ofValue_eq_ok hg
    obtain ⟨root', hroot', -, hs'⟩ := ofValue_eq_ok hg'
    exact ⟨root, root', hroot, hroot', hregular.sameTree_modern hs hs'⟩

/-- The members of `legacyMembers` with newer forms. -/
def newerMembers : List (String × Value) :=
  [("prefixItems", .array [.object [("type", .array [.string "integer", .string "null"])]]),
    ("items", .bool false), ("$defs", .object [("a", .bool true)]), ("nullable", .string "x"),
    ("minLength", .string "y")]

theorem ofValue_modern_legacy : modern (.object legacyMembers) = .object newerMembers ∧
    ∃ g g' root root', ofValue (.object legacyMembers) = .ok g ∧
      ofValue (.object newerMembers) = .ok g' ∧ g.root? = some root ∧ g'.root? = some root' ∧
      SameTree g g' root root' := by
  have hmodern : modern (.object legacyMembers) = .object newerMembers := rfl
  have hkeys : (Value.object legacyMembers).DistinctKeys := by
    simp [Value.DistinctKeys, Value.DistinctKeysMembers, Value.DistinctKeysList, legacyMembers,
      legacyItem]
  have hc : ∀ ms, SchemaAt (.object legacyMembers) (.object ms) → Unambiguous ms := by
    intro ms h
    rcases schemaAt_legacy h with h | h | ⟨b, h⟩
    · cases h
      exact ⟨.inl rfl, .inl rfl⟩
    · cases h
      exact ⟨.inl rfl, .inl rfl⟩
    · cases h
  obtain ⟨hiff, hsame⟩ := ofValue_modern hkeys hc
  have hok : (ofValue (.object legacyMembers)).isOk = true := by decide +kernel
  obtain ⟨g, hg⟩ := exists_of_isOk hok
  obtain ⟨g', hg'⟩ := hiff.mp ⟨g, hg⟩
  obtain ⟨root, root', hroot, hroot', htree⟩ := hsame g g' hg hg'
  exact ⟨hmodern, g, g', root, root', hg, hmodern ▸ hg', hroot, hroot', htree⟩

end Graph

end

end OpenApi.Schema
