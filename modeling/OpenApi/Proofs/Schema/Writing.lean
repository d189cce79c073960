import OpenApi.Proofs.Schema.Draft

/-!
# Written nodes

* `Graph.toValue_eq`: in a forest neither the bound on levels nor the guard against a node inside
  itself is ever met, so a node is written by writing its subschemas the same way;
* `Node.get?_members`: what is written under a key. Of two values the later one counts: an extension
  before a custom keyword, before an annotation, before a keyword;
* `Node.entries_members`: where it stands.
-/

namespace OpenApi.Schema

open Json

namespace Node

variable {n n' : Node} {write write' : NodeId → Value}

theorem mem_subschemas {s : Slot} {c : NodeId} (hb : n.boolean = none) (hc : c ∈ n.slot s) :
    c ∈ n.subschemas := by
  rw [subschemas, hb]
  exact List.mem_flatMap.mpr ⟨s, s.mem_traversal, hc⟩

/-! ## Subschemas -/

theorem slotValue?_congr {s : Slot} (h : ∀ c ∈ n.slot s, write c = write' c) :
    n.slotValue? write s = n.slotValue? write' s := by
  cases s with
  | child k =>
    simp only [slot, Option.mem_toList] at h
    cases hc : n.child k with
    | none => simp [slotValue?, hc]
    | some c => simp [slotValue?, hc, h c hc]
  | list k =>
    have hl : (n.list k).map write = (n.list k).map write' := List.map_congr_left h
    simp only [slotValue?, hl]
  | map k =>
    have hm : ∀ e ∈ (n.map k).entries, (e.1, write e.2) = (e.1, write' e.2) := fun e he => by
      rw [h e.2 (List.mem_map_of_mem he)]
    simp only [slotValue?, List.map_congr_left hm]

theorem keywordValue?_of_isPlain {k : Keyword} (h : k.isPlain) :
    n.keywordValue? write k = n.plainValue? k := by
  cases k with
  | slot => cases h
  | _ => rfl

theorem keywordValue?_congr (h : ∀ s, ∀ c ∈ n.slot s, write c = write' c) (k : Keyword) :
    n.keywordValue? write k = n.keywordValue? write' k := by
  cases k with
  | slot s => exact slotValue?_congr (h s)
  | _ => rfl

/-- A node is written alike if its subschemas are. -/
theorem members_congr (h : ∀ s, ∀ c ∈ n.slot s, write c = write' c) :
    n.members write = n.members write' := by
  have hk : n.keywordValue? write = n.keywordValue? write' := funext fun k =>
    keywordValue?_congr h k
  rw [members, members, hk]

end Node

namespace Graph

variable {g : Graph}

/-- The value of a node in a forest does not depend on the levels left nor on the nodes above. -/
theorem Forest.valueBelow_eq (h : Forest g) {fuel fuel' : Nat} {path path' : List NodeId}
    {id : NodeId} (hf : id < fuel) (hf' : id < fuel') (hp : ∀ p ∈ path, id < p)
    (hp' : ∀ p ∈ path', id < p) : g.valueBelow fuel path id = g.valueBelow fuel' path' id := by
  induction id using Nat.strongRecOn generalizing fuel fuel' path path' with
  | ind id ih =>
    obtain ⟨fuel, rfl⟩ := Nat.exists_eq_succ_of_ne_zero (Nat.ne_of_gt (Nat.zero_lt_of_lt hf))
    obtain ⟨fuel', rfl⟩ := Nat.exists_eq_succ_of_ne_zero (Nat.ne_of_gt (Nat.zero_lt_of_lt hf'))
    have hc : path.contains id = false := by
      simpa using fun hm => Nat.lt_irrefl _ (hp id hm)
    have hc' : path'.contains id = false := by
      simpa using fun hm => Nat.lt_irrefl _ (hp' id hm)
    simp only [valueBelow, hc, hc', Bool.false_eq_true, ↓reduceIte]
    cases hn : g.node? id with
    | none => rfl
    | some n =>
      cases hb : n.boolean with
      | some b => simp only [hb]
      | none =>
        simp only [hb]
        refine congrArg Value.ofMap (Node.members_congr fun s c hc => ?_)
        have hlt : c < id := by
          refine h.lt ?_
          rw [subschemas, hn]
          exact Node.mem_subschemas hb hc
        refine ih c hlt (Nat.lt_of_lt_of_le hlt (Nat.le_of_lt_succ hf))
          (Nat.lt_of_lt_of_le hlt (Nat.le_of_lt_succ hf')) ?_ ?_
        · simpa [hlt] using fun p hm => Nat.lt_trans hlt (hp p hm)
        · simpa [hlt] using fun p hm => Nat.lt_trans hlt (hp' p hm)

/-- A node of a forest is written by writing its subschemas the same way. -/
theorem Forest.toValue_eq (h : Forest g) {id : NodeId} {n : Node} (hn : g.node? id = some n)
    (hb : n.boolean = none) : g.toValue id = .ofMap (n.members g.toValue) := by
  have hid := lt_size_of_node? hn
  simp only [toValue, valueBelow, List.contains_nil, Bool.false_eq_true, ↓reduceIte, hn, hb]
  refine congrArg Value.ofMap (Node.members_congr fun s c hc => ?_)
  have hlt : c < id := by
    refine h.lt ?_
    rw [subschemas, hn]
    exact Node.mem_subschemas hb hc
  have hc : c < g.size := Nat.lt_trans hlt hid
  exact h.valueBelow_eq hc (Nat.lt_succ_of_lt hc) (by simpa using hlt) (by simp)

theorem toValue_ofBool {id : NodeId} {b : Bool} (hn : g.node? id = some (.ofBool b)) :
    g.toValue id = .bool b := by
  simp only [toValue, valueBelow, List.contains_nil, Bool.false_eq_true, ↓reduceIte, hn,
    Node.ofBool]

end Graph

/-! ## Members -/

namespace Node

variable {n : Node} {write : NodeId → Value}

/-- The members that keywords are written as. -/
def known (n : Node) (write : NodeId → Value) : List (String × Value) :=
  Keyword.written.filterMap fun k => (n.keywordValue? write k).map fun v => (k.word, v)

theorem mem_known {e : String × Value} :
    e ∈ n.known write ↔ ∃ k : Keyword, e.1 = k.word ∧ n.keywordValue? write k = some e.2 := by
  obtain ⟨key, v⟩ := e
  simp only [known, List.mem_filterMap, Option.map_eq_some_iff, Prod.mk.injEq]
  constructor
  · rintro ⟨k, -, v, hv, rfl, rfl⟩
    exact ⟨k, rfl, hv⟩
  · rintro ⟨k, rfl, hv⟩
    exact ⟨k, k.mem_written, v, hv, rfl, rfl⟩

theorem nodup_known (n : Node) (write : NodeId → Value) : ((n.known write).map Prod.fst).Nodup := by
  have hw : Keyword.written.Pairwise fun k k' => k.word ≠ k'.word :=
    List.pairwise_map.mp Keyword.nodup_words
  refine List.pairwise_map.mpr (List.pairwise_filterMap.mpr (hw.imp fun hne e he e' he' => ?_))
  obtain ⟨_, _, rfl⟩ := Option.map_eq_some_iff.mp he
  obtain ⟨_, _, rfl⟩ := Option.map_eq_some_iff.mp he'
  exact hne

theorem get?_known (n : Node) (write : NodeId → Value) (k : Keyword) :
    Entries.get? k.word (n.known write) = n.keywordValue? write k := by
  cases hv : n.keywordValue? write k with
  | some v => exact Entries.get?_of_mem (n.nodup_known write) (mem_known.mpr ⟨k, rfl, hv⟩)
  | none =>
    rw [Entries.get?_eq_none_iff]
    intro hm
    obtain ⟨e, he, hw⟩ := List.mem_map.mp hm
    obtain ⟨k', hk', hv'⟩ := mem_known.mp he
    rw [Keyword.word_injective (hw.symm.trans hk'), hv'] at hv
    cases hv

theorem get?_known_of_isReserved (n : Node) (write : NodeId → Value) {key : String}
    (h : isReserved key) : Entries.get? key (n.known write) = none := by
  rw [Entries.get?_eq_none_iff]
  intro hm
  obtain ⟨e, he, hw⟩ := List.mem_map.mp hm
  obtain ⟨k, hk, -⟩ := mem_known.mp he
  rw [← hw, hk, k.not_isReserved] at h
  cases h

theorem members_eq (n : Node) (write : NodeId → Value) :
    n.members write = .ofList (n.known write ++ n.annotations.entries ++ n.custom.entries ++
      n.extensions.entries) := rfl

/-- The latest value under a key counts. -/
theorem get?_members (n : Node) (write : NodeId → Value) (key : String) :
    (n.members write).get? key = ((n.extensions.get? key).or (n.custom.get? key)).or
      ((n.annotations.get? key).or (Entries.get? key (n.known write))) := by
  rw [members_eq, OrderedMap.get?_ofList]
  simp only [List.reverse_append, Entries.get?_append,
    Entries.get?_reverse key n.extensions.nodup, Entries.get?_reverse key n.custom.nodup,
    Entries.get?_reverse key n.annotations.nodup,
    Entries.get?_reverse key (n.nodup_known write), Option.or_assoc]
  rfl

/-! ## Order -/

/-- What is kept in a node has words of its kind, and custom keywords are not set. -/
structure Sorted (n : Node) (write : NodeId → Value) : Prop where
  annotations : ∀ e ∈ n.annotations.entries,
    annotationWords.contains e.1 ∨ e.1 = "nullable" ∧ e.2.bool?.isSome
  custom : ∀ e ∈ n.custom.entries, isKept e.1 e.2 ∨ e.1 = "additionalItems"
  extensions : ∀ e ∈ n.extensions.entries, Text.startsWith "x-" e.1
  unset : ∀ k : Keyword, (n.custom.get? k.word).isSome → n.keywordValue? write k = none
  fits : ∀ k v, n.keywordValue? write k = some v → isKept k.word v = false

namespace Sorted

variable (h : n.Sorted write)
include h

theorem extensions_ne {e : String × Value} (he : e ∈ n.extensions.entries) {key : String}
    (hk : Text.startsWith "x-" key = false) : e.1 ≠ key := by
  rintro rfl
  rw [h.extensions e he] at hk
  cases hk

theorem get?_extensions {key : String} (hk : Text.startsWith "x-" key = false) :
    n.extensions.get? key = none :=
  Entries.get?_eq_none fun _ he => h.extensions_ne he hk

theorem get?_annotations {key : String} (hk : annotationWords.contains key = false)
    (hn : key ≠ "nullable") : n.annotations.get? key = none := by
  refine Entries.get?_eq_none fun e he hw => ?_
  obtain ha | ⟨hnullable, -⟩ := h.annotations e he
  · rw [hw, hk] at ha
    cases ha
  · exact hn (hw.symm.trans hnullable)

/-- No custom keyword is an extension. -/
theorem custom_not_extension {e : String × Value} (he : e ∈ n.custom.entries) :
    Text.startsWith "x-" e.1 = false := by
  rcases h.custom e he with hk | hk
  · cases hx : Text.startsWith "x-" e.1 with
    | false => rfl
    | true =>
      rw [isKept_eq_false (.inl hx)] at hk
      cases hk
  · rw [hk]
    decide +kernel

/-- No annotation is an extension or a keyword. -/
theorem annotations_word {e : String × Value} (he : e ∈ n.annotations.entries) :
    Text.startsWith "x-" e.1 = false ∧ ∀ k : Keyword, e.1 ≠ k.word := by
  have words : ∀ word ∈ "nullable" :: annotationWords,
      Text.startsWith "x-" word = false ∧ isReserved word := by decide +kernel
  have hw : e.1 ∈ "nullable" :: annotationWords := by
    rcases h.annotations e he with ha | ⟨hn, -⟩
    · exact List.mem_cons_of_mem _ (by simpa using ha)
    · rw [hn]
      exact List.mem_cons_self
  obtain ⟨hx, hr⟩ := words e.1 hw
  refine ⟨hx, fun k hk => ?_⟩
  rw [hk, k.not_isReserved] at hr
  cases hr

/-- A custom keyword is not written as a keyword. -/
theorem custom_notMem_known {e : String × Value} (he : e ∈ n.custom.entries) :
    e.1 ∉ (n.known write).map Prod.fst := by
  intro hm
  obtain ⟨e', he', hw⟩ := List.mem_map.mp hm
  obtain ⟨k, hk, hv⟩ := mem_known.mp he'
  have hc : (e.1, e.2) ∈ n.custom.entries := he
  rw [← OrderedMap.get?_eq_some_iff, ← hw, hk] at hc
  rw [h.unset k (by rw [hc]; rfl)] at hv
  cases hv

theorem known_notMem {e : String × Value} (he : e ∈ n.known write) :
    Entries.get? e.1 (n.custom.entries ++ n.extensions.entries) = none := by
  obtain ⟨k, hk, -⟩ := mem_known.mp he
  rw [Entries.get?_eq_none_iff, List.map_append, List.mem_append, not_or]
  constructor
  · intro hm
    obtain ⟨e', he', hw⟩ := List.mem_map.mp hm
    exact h.custom_notMem_known he' (hw ▸ List.mem_map_of_mem he)
  · intro hm
    obtain ⟨e', he', hw⟩ := List.mem_map.mp hm
    exact h.extensions_ne he' (hk ▸ k.word_not_extension) hw

theorem nodup_known_annotations :
    ((n.known write ++ n.annotations.entries).map Prod.fst).Nodup := by
  rw [List.map_append, List.nodup_append]
  refine ⟨n.nodup_known write, n.annotations.nodup, ?_⟩
  rintro key hk key' ha rfl
  obtain ⟨e, he, rfl⟩ := List.mem_map.mp hk
  obtain ⟨e', he', hw⟩ := List.mem_map.mp ha
  obtain ⟨k, hk, -⟩ := mem_known.mp he
  exact (h.annotations_word he').2 k (hw.trans hk)

theorem nodup_custom_extensions :
    ((n.custom.entries ++ n.extensions.entries).map Prod.fst).Nodup := by
  rw [List.map_append, List.nodup_append]
  refine ⟨n.custom.nodup, n.extensions.nodup, ?_⟩
  rintro key hc key' hx rfl
  obtain ⟨e, he, rfl⟩ := List.mem_map.mp hc
  obtain ⟨e', he', hw⟩ := List.mem_map.mp hx
  exact h.extensions_ne he' (h.custom_not_extension he) hw

/-- The keywords, the annotations with what custom keywords put in their places, the other custom
keywords and the extensions. -/
theorem entries_members : (n.members write).entries =
    n.known write ++ n.annotations.entries.map (fun e => (e.1, (n.custom.get? e.1).getD e.2)) ++
      (n.custom.entries.filter fun e => e.1 ∉ n.annotations.keys) ++ n.extensions.entries := by
  have hm : n.members write = (OrderedMap.ofList (n.known write ++ n.annotations.entries)).insertAll
      (n.custom.entries ++ n.extensions.entries) := by
    rw [members_eq, List.append_assoc, OrderedMap.ofList, OrderedMap.ofList, OrderedMap.insertAll,
      List.foldl_append]
    rfl
  have hkeys : (OrderedMap.ofList (n.known write ++ n.annotations.entries)).keys =
      (n.known write).map Prod.fst ++ n.annotations.keys := by
    rw [OrderedMap.keys, OrderedMap.entries_ofList h.nodup_known_annotations, List.map_append]
    rfl
  have hknown : (n.known write).map (fun e =>
      (e.1, (Entries.get? e.1 (n.custom.entries ++ n.extensions.entries)).getD e.2)) =
      n.known write := by
    rw [List.map_congr_left fun e he => by rw [h.known_notMem he]]
    exact List.map_id _
  have hann : n.annotations.entries.map (fun e =>
      (e.1, (Entries.get? e.1 (n.custom.entries ++ n.extensions.entries)).getD e.2)) =
      n.annotations.entries.map fun e => (e.1, (n.custom.get? e.1).getD e.2) := by
    refine List.map_congr_left fun e he => ?_
    have hx : Entries.get? e.1 n.extensions.entries = none :=
      h.get?_extensions (h.annotations_word he).1
    rw [Entries.get?_append, hx, Option.or_none]
    rfl
  have hcustom : n.custom.entries.filter
      (fun e => e.1 ∉ (n.known write).map Prod.fst ++ n.annotations.keys) =
      n.custom.entries.filter fun e => e.1 ∉ n.annotations.keys := by
    refine List.filter_congr fun e he => ?_
    simp only [List.mem_append, h.custom_notMem_known he, false_or]
  have hext : n.extensions.entries.filter
      (fun e => e.1 ∉ (n.known write).map Prod.fst ++ n.annotations.keys) =
      n.extensions.entries := by
    refine List.filter_eq_self.mpr fun e he => ?_
    rw [decide_eq_true_eq, List.mem_append, not_or]
    constructor
    · intro hk
      obtain ⟨e', he', hw⟩ := List.mem_map.mp hk
      obtain ⟨k, hk, -⟩ := mem_known.mp he'
      exact h.extensions_ne he k.word_not_extension (hw.symm.trans hk)
    · intro ha
      obtain ⟨e', he', hw⟩ := List.mem_map.mp ha
      exact h.extensions_ne he (h.annotations_word he').1 hw.symm
  rw [hm, OrderedMap.entries_insertAll h.nodup_custom_extensions,
    OrderedMap.entries_ofList h.nodup_known_annotations, List.map_append, hknown, hann, hkeys,
    List.filter_append, hcustom, hext, ← List.append_assoc]

omit h in
/-- A node that keeps the same and writes its keywords the same. -/
theorem congr {n' : Node} {write' : NodeId → Value} (h : n.Sorted write)
    (ha : n'.annotations = n.annotations) (hx : n'.extensions = n.extensions)
    (hc : ∀ key, n'.custom.get? key = n.custom.get? key)
    (hk : ∀ k, n'.keywordValue? write' k = n.keywordValue? write k) : n'.Sorted write' where
  annotations e he := h.annotations e (ha ▸ he)
  custom e he := by
    have hget := hc e.1
    rw [show n'.custom.get? e.1 = some e.2 from OrderedMap.get?_eq_some_iff.mpr he] at hget
    exact h.custom e (OrderedMap.get?_eq_some_iff.mp hget.symm)
  extensions e he := h.extensions e (hx ▸ he)
  unset k hs := by
    rw [hk]
    exact h.unset k (hc k.word ▸ hs)
  fits k v hv := h.fits k v (hk k ▸ hv)

/-- The extensions among the members that are written. -/
theorem filter_extensions : (n.members write).entries.filter (fun e => Text.startsWith "x-" e.1) =
    n.extensions.entries := by
  have hk : (n.known write).filter (fun e => Text.startsWith "x-" e.1) = [] := by
    refine List.filter_eq_nil_iff.mpr fun e he hx => ?_
    obtain ⟨k, hk, -⟩ := mem_known.mp he
    rw [hk, k.word_not_extension] at hx
    cases hx
  have ha : (n.annotations.entries.map fun e => (e.1, (n.custom.get? e.1).getD e.2)).filter
      (fun e => Text.startsWith "x-" e.1) = [] := by
    refine List.filter_eq_nil_iff.mpr fun e he hx => ?_
    obtain ⟨e', he', rfl⟩ := List.mem_map.mp he
    rw [(h.annotations_word he').1] at hx
    cases hx
  have hc : (n.custom.entries.filter fun e => e.1 ∉ n.annotations.keys).filter
      (fun e => Text.startsWith "x-" e.1) = [] := by
    refine List.filter_eq_nil_iff.mpr fun e he hx => ?_
    rw [h.custom_not_extension (List.mem_filter.mp he).1] at hx
    cases hx
  rw [h.entries_members, List.filter_append, List.filter_append, List.filter_append, hk, ha, hc,
    List.filter_eq_self.mpr h.extensions]
  rfl

/-- The annotations among the members that are written, that of `nullable` left aside. -/
theorem filter_annotations :
    (n.members write).entries.filter (fun e => annotationWords.contains e.1) =
      n.annotations.entries.filter fun e => annotationWords.contains e.1 := by
  have hk : (n.known write).filter (fun e => annotationWords.contains e.1) = [] := by
    refine List.filter_eq_nil_iff.mpr fun e he hx => ?_
    obtain ⟨k, hk, -⟩ := mem_known.mp he
    rw [hk, k.word_not_in_annotations] at hx
    cases hx
  have custom : ∀ e ∈ n.custom.entries, annotationWords.contains e.1 = false := by
    intro e he
    cases ha : annotationWords.contains e.1 with
    | false => rfl
    | true =>
      rcases h.custom e he with hc | hc
      · rw [isKept_eq_false (.inr (.inl ha))] at hc
        cases hc
      · rw [hc] at ha
        cases ha
  have ha : (n.annotations.entries.map fun e => (e.1, (n.custom.get? e.1).getD e.2)).filter
      (fun e => annotationWords.contains e.1) =
      n.annotations.entries.filter fun e => annotationWords.contains e.1 := by
    have same : ∀ e ∈ n.annotations.entries.filter fun e => annotationWords.contains e.1,
        (e.1, (n.custom.get? e.1).getD e.2) = e := by
      intro e he
      have hnone : n.custom.get? e.1 = none := by
        refine Entries.get?_eq_none fun e' he' hw => ?_
        have hc := custom e' he'
        rw [hw, (List.mem_filter.mp he).2] at hc
        cases hc
      rw [hnone]
      rfl
    rw [List.filter_map]
    exact (List.map_congr_left same).trans (List.map_id _)
  have hc : (n.custom.entries.filter fun e => e.1 ∉ n.annotations.keys).filter
      (fun e => annotationWords.contains e.1) = [] := by
    refine List.filter_eq_nil_iff.mpr fun e he hx => ?_
    rw [custom e (List.mem_filter.mp he).1] at hx
    cases hx
  have hx : n.extensions.entries.filter (fun e => annotationWords.contains e.1) = [] := by
    have words : ∀ word ∈ annotationWords, Text.startsWith "x-" word = false := by decide +kernel
    refine List.filter_eq_nil_iff.mpr fun e he ha => ?_
    exact h.extensions_ne he (words e.1 (by simpa using ha)) rfl
  rw [h.entries_members, List.filter_append, List.filter_append, List.filter_append, hk, ha, hc,
    hx, List.append_nil, List.append_nil, List.nil_append]

/-- The custom keywords among the members that are written, `additionalItems` left aside. -/
theorem filter_isKept : (n.members write).entries.filter (fun e => isKept e.1 e.2) =
    (n.annotations.entries.map fun e => (e.1, (n.custom.get? e.1).getD e.2)).filter
        (fun e => isKept e.1 e.2) ++
      (n.custom.entries.filter fun e => isKept e.1 e.2).filter
        fun e => e.1 ∉ n.annotations.keys := by
  have hk : (n.known write).filter (fun e => isKept e.1 e.2) = [] := by
    refine List.filter_eq_nil_iff.mpr fun e he hx => ?_
    obtain ⟨k, hk, hv⟩ := mem_known.mp he
    rw [hk, h.fits k e.2 hv] at hx
    cases hx
  have hx : n.extensions.entries.filter (fun e => isKept e.1 e.2) = [] := by
    refine List.filter_eq_nil_iff.mpr fun e he hx => ?_
    rw [isKept_eq_false (.inl (h.extensions e he))] at hx
    cases hx
  rw [h.entries_members, List.filter_append, List.filter_append, List.filter_append, hk, hx,
    List.append_nil, List.nil_append, List.filter_filter, List.filter_filter]
  simp only [Bool.and_comm]

end Sorted

end Node

end OpenApi.Schema
