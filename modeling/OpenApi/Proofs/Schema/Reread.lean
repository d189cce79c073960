import OpenApi.Proofs.Schema.Written

/-!
# Reading a written node again

A node that was read from an object, `n`, is written and read as `n'`, its subschemas standing in a
relation to what was written for them.

* `ReadsObject.plain_reload`, `ReadsObject.types_reload`: `n'` holds what `n` holds;
* `ReadsObject.annotations_reload`, `ReadsObject.extensions_reload`,
  `ReadsObject.get?_custom_reload`: and keeps what `n` keeps;
* `ReadsObject.slot_reload`: the subschemas correspond;
* `ReadsObject.members_reload`: if those are written as before, so is `n'`.
-/

namespace OpenApi.Schema

open Json

namespace ReadsObject

/-- Subschemas that are written as before are written as before together. -/
theorem map_write_reload {S' : Value → NodeId → Prop} {write write' : NodeId → Value}
    {ids ids' : List NodeId} (hw : ∀ c ∈ ids, ∀ c', S' (write c) c' → write' c' = write c)
    (h : List.Forall₂ S' (ids.map write) ids') : ids'.map write' = ids.map write := by
  induction ids generalizing ids' with
  | nil =>
    rw [List.forall₂_nil_left_iff.mp h]
    rfl
  | cons c ids ih =>
    obtain ⟨c', ids', hc, hids, rfl⟩ := List.forall₂_cons_left_iff.mp h
    rw [List.forall_mem_cons] at hw
    rw [List.map_cons, List.map_cons, hw.1 c' hc, ih hw.2 hids]

section

variable {S S' : Value → NodeId → Prop} {ms : List (String × Value)} {n n' : Node}
  {write : NodeId → Value} (h : ReadsObject S ms n) (hkeys : (ms.map Prod.fst).Nodup)
  (hc : Unambiguous ms) (hwrite : ∀ s, ∀ c ∈ n.slot s, isSchema (write c))
  (h' : ReadsObject S' (n.members write).entries n')
include h hkeys hc hwrite h'

theorem plainValue?_reload {k : Keyword} (ht : k ≠ .type) :
    n'.plainValue? k = n.plainValue? k := by
  by_cases hp : k.isPlain
  · rw [h'.plainValue? (n.members write).nodup hp ht]
    exact h.get?_members_of_plainValue? hkeys hc hwrite hp ht
  · cases k with
    | slot => rfl
    | _ => exact absurd rfl hp

theorem extensions_reload : n'.extensions = n.extensions :=
  OrderedMap.ext ((h'.extensions (n.members write).nodup).trans
    (h.sorted hkeys hc hwrite).filter_extensions)

theorem annotations_reload : n'.annotations = n.annotations := by
  refine OrderedMap.ext ?_
  rw [h'.annotations (n.members write).nodup, (h.sorted hkeys hc hwrite).filter_annotations,
    h.nullableNote_members hkeys hc hwrite, h.annotations hkeys, List.filter_append,
    List.filter_filter]
  have hnote : (nullableNote ms).filter (fun e => annotationWords.contains e.1) = [] := by
    rw [nullableNote]
    split <;> rfl
  simp only [Bool.and_self, hnote, List.append_nil]

theorem get?_custom_reload (key : String) : n'.custom.get? key = n.custom.get? key := by
  have hs := h.sorted hkeys hc hwrite
  by_cases hk : key = "additionalItems"
  · subst hk
    rw [h'.get?_custom_additionalItems (n.members write).nodup,
      h.get?_custom_additionalItems hkeys, h.additionalNote_members hkeys hc hwrite]
  · rw [h'.get?_custom (n.members write).nodup hk,
      show Entries.get? key (n.members write).entries = _ from n.get?_members write key]
    cases hv : n.custom.get? key with
    | some v =>
      have hx : n.extensions.get? key = none :=
        hs.get?_extensions (hs.custom_not_extension (OrderedMap.get?_eq_some_iff.mp hv))
      rw [h.get?_custom hkeys hk, Option.filter_eq_some_iff] at hv
      rw [hx, Option.none_or, Option.some_or, Option.filter_some, if_pos hv.2]
    | none =>
      -- What stands there otherwise is not kept: an extension, an annotation or a keyword.
      rw [Option.or_none, Option.filter_eq_none_iff]
      intro v hv
      rcases Option.or_eq_some_iff.mp hv with hv | ⟨-, hv⟩
      · have hx := hs.extensions _ (OrderedMap.get?_eq_some_iff.mp hv)
        simp [isKept_eq_false (.inl hx)]
      rcases Option.or_eq_some_iff.mp hv with hv | ⟨-, hv⟩
      · rcases hs.annotations _ (OrderedMap.get?_eq_some_iff.mp hv) with ha | ⟨hn, hb⟩
        · simp [isKept_eq_false (.inr (.inl ha))]
        · simp only at hn hb
          subst hn
          simpa [isKept_nullable, Option.isSome_iff_ne_none] using hb
      · obtain ⟨k, rfl, hv⟩ := Node.mem_known.mp (Entries.mem_of_get? hv)
        rw [hs.fits k v hv]
        exact Bool.false_ne_true

theorem filter_custom_reload :
    n'.custom.entries.filter (fun e => e.1 ∉ n.annotations.keys) =
      n.custom.entries.filter fun e => e.1 ∉ n.annotations.keys := by
  have hkept : n.custom.entries.filter (fun e => isKept e.1 e.2) =
      ms.filter fun e => isKept e.1 e.2 := by
    have hnote : (additionalNote ms).filter (fun e => isKept e.1 e.2) = [] := by
      rcases additionalNote_eq ms with hn | ⟨v, hn⟩
      · rw [hn]
        rfl
      · rw [hn, List.filter_cons_of_neg (by simp [isKept_eq_false (.inr (.inr rfl))])]
        rfl
    rw [h.custom hkeys, List.filter_append, List.filter_filter, hnote, List.append_nil]
    simp only [Bool.and_self]
  have hann : ((n.annotations.entries.map fun e => (e.1, (n.custom.get? e.1).getD e.2)).filter
      (fun e => isKept e.1 e.2)).filter (fun e => e.1 ∉ n.annotations.keys) = [] := by
    refine List.filter_eq_nil_iff.mpr fun e he => ?_
    obtain ⟨e', he', rfl⟩ := List.mem_map.mp (List.mem_filter.mp he).1
    have hm : e'.1 ∈ n.annotations.keys := List.mem_map_of_mem he'
    simp [hm]
  rw [h'.custom (n.members write).nodup, (h.sorted hkeys hc hwrite).filter_isKept, hkept,
    h.additionalNote_members hkeys hc hwrite, List.filter_append, List.filter_append, hann,
    List.filter_filter, List.nil_append, h.custom hkeys, List.filter_append]
  simp only [Bool.and_self]

/-- The only subschema of a keyword. -/
theorem child_reload (k : ChildKeyword) : Option.Rel S' ((n.child k).map write) (n'.child k) := by
  have hsource : childSource (n.members write).entries k =
      Entries.get? (Slot.child k).word (n.members write).entries := by
    rw [childSource, h.listsItems_members hkeys hc hwrite, if_neg fun hl => Bool.false_ne_true hl.2]
    rfl
  have hchild := h'.child (n.members write).nodup k
  rw [hsource] at hchild
  rcases h.get?_members_slot hkeys hc hwrite (.child k) with hw | ⟨hnone, v, hw, hb⟩
  · have hfilter : ((n.child k).map write).filter (isSchema ·) = (n.child k).map write := by
      cases hn : n.child k with
      | none => rfl
      | some c =>
        rw [Option.map_some, Option.filter_some, if_pos]
        exact hwrite (.child k) c (Option.mem_toList.mpr hn)
    rw [hw, Node.slotValue?, hfilter] at hchild
    exact hchild
  · have hv : isSchema v = false := by
      rcases Slot.below_child k v with ⟨-, hs⟩ | ⟨_, -, _, hs⟩ | ⟨hn, -, -⟩
      · rw [hs] at hb
        cases hb
      · rw [hs] at hb
        cases hb
      · exact hn
    rw [hw, Option.filter_some, hv] at hchild
    rw [Node.slotValue?] at hnone
    rw [hnone]
    exact hchild

theorem list_reload (k : ListKeyword) : List.Forall₂ S' ((n.list k).map write) (n'.list k) := by
  have hlist := h'.list (n.members write).nodup k fun _ => h.listsItems_members hkeys hc hwrite
  have hempty : n.slotValue? write (.list k) = none → n.list k = [] := by
    intro hnone
    simp only [Node.slotValue?] at hnone
    split at hnone
    · rename_i he
      exact List.isEmpty_iff.mp he
    · cases hnone
  have hitems : (((Entries.get? k.word (n.members write).entries).bind Value.items?).getD []) =
      (n.list k).map write := by
    rw [show k.word = (Slot.list k).word from rfl]
    rcases h.get?_members_slot hkeys hc hwrite (.list k) with hw | ⟨hnone, v, hw, hb⟩
    · rw [hw]
      cases hs : n.slotValue? write (.list k) with
      | none =>
        rw [hempty hs]
        rfl
      | some v =>
        simp only [Node.slotValue?] at hs
        split at hs
        · cases hs
        · cases hs
          rfl
    · rw [hw, hempty hnone]
      cases v <;> first | rfl | cases hb
  rwa [hitems] at hlist

theorem map_reload (k : MapKeyword) : (n'.map k).keys = (n.map k).keys ∧
    List.Forall₂ S' ((n.map k).values.map write) (n'.map k).values := by
  obtain ⟨ids, hids, hm⟩ := h'.map (n.members write).nodup k fun _ =>
    h.members?_definitions_members hkeys hc hwrite
  have hempty : n.slotValue? write (.map k) = none → (n.map k).entries = [] := by
    intro hnone
    simp only [Node.slotValue?] at hnone
    split at hnone
    · rename_i he
      exact List.isEmpty_iff.mp he
    · cases hnone
  have hmembers : (((Entries.get? k.word (n.members write).entries).bind Value.members?).getD []) =
      (n.map k).entries.map fun e => (e.1, write e.2) := by
    rw [show k.word = (Slot.map k).word from rfl]
    rcases h.get?_members_slot hkeys hc hwrite (.map k) with hw | ⟨hnone, v, hw, hb⟩
    · rw [hw]
      cases hs : n.slotValue? write (.map k) with
      | none =>
        rw [hempty hs]
        rfl
      | some v =>
        simp only [Node.slotValue?] at hs
        split at hs
        · cases hs
        · cases hs
          rfl
    · rw [hw, hempty hnone]
      cases v <;> first | rfl | cases hb
  have hfst : ((n.map k).entries.map fun e => (e.1, write e.2)).map Prod.fst = (n.map k).keys := by
    rw [List.map_map]
    rfl
  have hsnd : ((n.map k).entries.map fun e => (e.1, write e.2)).map Prod.snd =
      (n.map k).values.map write := by
    rw [List.map_map, OrderedMap.values, List.map_map]
    rfl
  rw [hmembers, hsnd] at hids
  rw [hmembers, hfst] at hm
  have hlength : (n.map k).keys.length = ids.length := by
    rw [← hids.length_eq, List.length_map, OrderedMap.keys, OrderedMap.values, List.length_map,
      List.length_map]
  have hnodup : (n.map k).keys.Nodup := (n.map k).nodup
  obtain ⟨hk, hv⟩ := OrderedMap.keys_values_ofList_zip hnodup hlength
  rw [hm, hk, hv]
  exact ⟨rfl, hids⟩

/-- The subschemas of the two nodes correspond, slot by slot in order. -/
theorem slot_reload (s : Slot) :
    List.Forall₂ (fun c c' => S' (write c) c') (n.slot s) (n'.slot s) := by
  cases s with
  | child k =>
    have hchild := h.child_reload hkeys hc hwrite h' k
    simp only [Node.slot]
    cases hn : n.child k with
    | none =>
      rw [hn] at hchild
      cases hn' : n'.child k with
      | none => exact .nil
      | some c' =>
        rw [hn'] at hchild
        cases hchild
    | some c =>
      rw [hn] at hchild
      cases hn' : n'.child k with
      | none =>
        rw [hn'] at hchild
        cases hchild
      | some c' =>
        rw [hn'] at hchild
        cases hchild with
        | some hcc => exact .cons hcc .nil
  | list k => exact List.forall₂_map_left_iff.mp (h.list_reload hkeys hc hwrite h' k)
  | map k => exact List.forall₂_map_left_iff.mp (h.map_reload hkeys hc hwrite h' k).2

/-- All but the types and the subschemas are as before. -/
theorem plain_reload : n.boolean = n'.boolean ∧ n.text = n'.text ∧ n.number = n'.number ∧
    n.bound = n'.bound ∧ n.count = n'.count ∧ n.enumeration = n'.enumeration ∧
    n.constant = n'.constant ∧ n.uniqueItems = n'.uniqueItems ∧ n.required = n'.required :=
  ⟨(h.boolean hkeys).trans (h'.boolean (n.members write).nodup).symm,
    Node.plain_ext fun _ hk => (h.plainValue?_reload hkeys hc hwrite h' hk).symm⟩

theorem inferredTypes_reload : n'.inferredTypes = n.inferredTypes := by
  have hboolean := (h.boolean hkeys).trans (h'.boolean (n.members write).nodup).symm
  refine (Node.inferredTypes_congr hboolean (fun k hk => ?_) fun s => ?_).symm
  · exact (h.plainValue?_reload hkeys hc hwrite h' hk).symm
  · exact (h.slot_reload hkeys hc hwrite h' s).length_eq

/-- The types are inferred again, or declared again. -/
theorem types_reload : n'.types = n.types ∧ n'.typesInferred = n.typesInferred := by
  have ht := h.types hkeys
  have ht' := h'.types (n.members write).nodup
  obtain ⟨-, htext, -⟩ := h.plain_reload hkeys hc hwrite h'
  rw [h.shownTypes_members hkeys hc hwrite, h.inferredTypes_reload hkeys hc hwrite h', ← htext,
    ← ht] at ht'
  exact Prod.mk.inj ht'

/-- A keyword has the value that it had if subschemas are written as before. -/
theorem keywordValue?_reload {write' : NodeId → Value}
    (hw : ∀ s, ∀ c ∈ n.slot s, ∀ c', S' (write c) c' → write' c' = write c) (k : Keyword) :
    n'.keywordValue? write' k = n.keywordValue? write k := by
  cases k with
  | slot s =>
    cases s with
    | child k =>
      have hk := h.child_reload hkeys hc hwrite h' k
      simp only [Node.keywordValue?, Node.slotValue?]
      cases hn : n.child k <;> cases hn' : n'.child k <;> rw [hn, hn'] at hk
      · rfl
      · cases hk
      · cases hk
      · cases hk with
        | some hcc =>
          rw [Option.map_some, Option.map_some, hw (.child k) _ (Option.mem_toList.mpr hn) _ hcc]
    | list k =>
      have hlist : (n'.list k).map write' = (n.list k).map write :=
        map_write_reload (hw (.list k)) (h.list_reload hkeys hc hwrite h' k)
      have hempty := congrArg List.isEmpty hlist
      rw [List.isEmpty_map, List.isEmpty_map] at hempty
      simp only [Node.keywordValue?, Node.slotValue?, hlist, hempty]
    | map k =>
      obtain ⟨hk, hv⟩ := h.map_reload hkeys hc hwrite h' k
      have hvalues : (n'.map k).values.map write' = (n.map k).values.map write :=
        map_write_reload (hw (.map k)) hv
      have hempty := congrArg List.isEmpty hk
      rw [OrderedMap.keys, OrderedMap.keys, List.isEmpty_map, List.isEmpty_map] at hempty
      simp only [Node.keywordValue?, Node.slotValue?, OrderedMap.map_entries, OrderedMap.isEmpty,
        hk, hvalues, hempty]
  | type =>
    obtain ⟨htypes, hinferred⟩ := h.types_reload hkeys hc hwrite h'
    simp only [Node.keywordValue?, Node.plainValue?, htypes, hinferred]
  | _ =>
    rw [Node.keywordValue?_of_isPlain rfl, Node.keywordValue?_of_isPlain rfl]
    exact h.plainValue?_reload hkeys hc hwrite h' (by rintro ⟨⟩)

theorem members_reload {write' : NodeId → Value}
    (hw : ∀ s, ∀ c ∈ n.slot s, ∀ c', S' (write c) c' → write' c' = write c) :
    n'.members write' = n.members write := by
  have hs := h.sorted hkeys hc hwrite
  have hk := h.keywordValue?_reload hkeys hc hwrite h' hw
  have hs' := hs.congr (h.annotations_reload hkeys hc hwrite h')
    (h.extensions_reload hkeys hc hwrite h') (h.get?_custom_reload hkeys hc hwrite h') hk
  have hknown : n'.known write' = n.known write := by
    rw [Node.known, Node.known, funext hk]
  refine OrderedMap.ext ?_
  rw [hs'.entries_members, hs.entries_members, hknown, h.annotations_reload hkeys hc hwrite h',
    h.extensions_reload hkeys hc hwrite h', h.filter_custom_reload hkeys hc hwrite h']
  simp only [h.get?_custom_reload hkeys hc hwrite h']

end

end ReadsObject

end OpenApi.Schema
