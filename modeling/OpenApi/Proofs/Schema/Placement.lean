import OpenApi.Proofs.Schema.Location
import OpenApi.Proofs.Schema.Reload

/-!
# Where keywords go

A member of an object is kept among the extensions, the annotations or the custom keywords, or the
node takes it in the field that its key names.

* `Reads.list_of_mem`, `Reads.map_of_mem`: what members with lists and maps of subschemas leave in
  a node, also where a later one fills the same place;
* `ReadsObject.get?_kept`: what is kept, and among what;
* `ReadsObject.takes_iff`: what is taken is what is not kept;
* `Graph.Stores.landsOnce_iff`: every key lands in one place, but `nullable` may land in two.
-/

namespace OpenApi.Schema

open Json

/-! ## Places that several members fill -/

/-- The list that a member fills: an array of items is read as prefix items. -/
def listOf? (key : String) (value : Value) : Option ListKeyword :=
  match Slot.ofWord? key, value with
  | some (.list k), .array _ => some k
  | some (.child .items), .array _ => some .prefixItems
  | _, _ => none

/-- The map that a member fills. -/
def mapOf? (key : String) (value : Value) : Option MapKeyword :=
  match Slot.ofWord? key, value with
  | some (.map k), .object _ => some k
  | _, _ => none

/-- A member that stands after the one with the key. -/
def After (ms : List (String × Value)) (key : String) (m : String × Value) : Prop :=
  ∃ before value after, ms = before ++ (key, value) :: after ∧ m ∈ after

theorem listOf?_eq_some_iff {key : String} {value : Value} {k : ListKeyword} :
    listOf? key value = some k ↔ ∃ vs s, value = .array vs ∧ Slot.ofWord? key = some s ∧
      s.target value = .list k := by
  constructor
  · intro h
    rw [listOf?.eq_def] at h
    split at h
    next hs =>
      cases h
      exact ⟨_, _, rfl, hs, rfl⟩
    next hs =>
      cases h
      exact ⟨_, _, rfl, hs, rfl⟩
    next => cases h
  · rintro ⟨vs, s, rfl, hs, htarget⟩
    rcases s with k' | k' | k'
    · by_cases hk : k' = .items
      · subst hk
        cases htarget
        simp only [listOf?, hs]
      · cases k' <;> first | exact absurd rfl hk | cases htarget
    · cases htarget
      simp only [listOf?, hs]
    · cases htarget

theorem mapOf?_eq_some_iff {key : String} {value : Value} {k : MapKeyword} :
    mapOf? key value = some k ↔ ∃ es, value = .object es ∧ Slot.ofWord? key = some (.map k) := by
  constructor
  · intro h
    rw [mapOf?.eq_def] at h
    split at h
    next hs =>
      cases h
      exact ⟨_, rfl, hs⟩
    next => cases h
  · rintro ⟨es, rfl, hs⟩
    simp only [mapOf?, hs]

namespace Draft

variable {key : String} {value : Value} {ids : List NodeId} {vs : List Value}
  {es : List (String × Value)}

theorem subvalues_of_listOf? {k : ListKeyword} (h : listOf? key (.array vs) = some k) :
    subvalues key (.array vs) = .list vs := by
  obtain ⟨_, s, ⟨⟩, hs, htarget⟩ := listOf?_eq_some_iff.mp h
  rw [subvalues, hs]
  rcases s with k' | k' | k'
  · cases k' <;> first | rfl | cases htarget
  · rfl
  · cases htarget

theorem list_read_self (d : Draft) {k : ListKeyword} (h : listOf? key (.array vs) = some k) :
    (d.read key (.array vs) (.list ids)).node.list k = ids := by
  obtain ⟨_, s, ⟨⟩, hs, htarget⟩ := listOf?_eq_some_iff.mp h
  simp only [read, hs]
  rcases s with k' | k' | k'
  · by_cases hk : k' = .items
    · subst hk
      cases htarget
      exact update_self d.node.list .prefixItems ids
    · cases k' <;> first | exact absurd rfl hk | cases htarget
  · cases htarget
    exact update_self ..
  · cases htarget

theorem list_read_of_ne (d : Draft) {k : ListKeyword} (h : listOf? key value ≠ some k) :
    (d.read key value ((subvalues key value).refill ids)).node.list k = d.node.list k := by
  by_cases hk : key = k.word
  · subst hk
    have hs : Slot.ofWord? k.word = some (.list k) := Slot.ofWord?_word (.list k)
    have hb : (Slot.list k).below value = .nothing := by
      cases value with
      | array vs => exact absurd (listOf?_eq_some_iff.mpr ⟨vs, _, rfl, hs, rfl⟩) h
      | _ => rfl
    simp only [read, subvalues, hs, hb, Below.refill_nothing, fill_nothing]
    rfl
  · refine (d.step key value _).list_eq hk ?_
    rintro rfl rfl
    have hs : Slot.ofWord? "items" = some (.child .items) := Slot.ofWord?_word (.child .items)
    cases value with
    | array vs => exact absurd (listOf?_eq_some_iff.mpr ⟨vs, _, rfl, hs, rfl⟩) h
    | _ => rfl

theorem map_read_self (d : Draft) {k : MapKeyword} (h : mapOf? key (.object es) = some k) :
    (d.read key (.object es) ((subvalues key (.object es)).refill ids)).node.map k =
      (if k = .defs then d.node.map k else .empty).insertAll ((es.map Prod.fst).zip ids) := by
  obtain ⟨_, ⟨⟩, hs⟩ := mapOf?_eq_some_iff.mp h
  simp only [read, subvalues, hs]
  exact update_self ..

theorem map_read_of_ne (d : Draft) {k : MapKeyword} (h : mapOf? key value ≠ some k) :
    (d.read key value ((subvalues key value).refill ids)).node.map k = d.node.map k := by
  by_cases hs : Slot.ofWord? key = some (.map k)
  · have hb : (Slot.map k).below value = .nothing := by
      cases value with
      | object es => exact absurd (mapOf?_eq_some_iff.mpr ⟨es, rfl, hs⟩) h
      | _ => rfl
    simp only [read, subvalues, hs, hb, Below.refill_nothing, fill_nothing]
    rfl
  · refine (d.step key value _).map_eq ?_ ?_
    · rintro rfl
      exact hs (Slot.ofWord?_word (.map k))
    · rintro rfl rfl
      exact absurd Slot.ofWord?_definitions hs

end Draft

theorem exists_mem_zip {S : Value → NodeId → Prop} {es : List (String × Value)}
    {ids : List NodeId} (h : List.Forall₂ S (es.map Prod.snd) ids) {e : String × Value}
    (he : e ∈ es) : ∃ c, (e.1, c) ∈ (es.map Prod.fst).zip ids ∧ S e.2 c := by
  induction es generalizing ids with
  | nil => cases he
  | cons e' es ih =>
    obtain ⟨c, ids, hc, hids, rfl⟩ := List.forall₂_cons_left_iff.mp h
    rcases List.mem_cons.mp he with rfl | he
    · exact ⟨c, List.mem_cons_self, hc⟩
    · obtain ⟨c, hmem, hc⟩ := ih hids he
      exact ⟨c, List.mem_cons_of_mem _ hmem, hc⟩

section

variable {S : Value → NodeId → Prop} {d d' : Draft} {ms : List (String × Value)} {key : String}

/-- A list that a member fills holds its subschemas, unless a later member fills it again. -/
theorem Reads.list_of_mem (h : Reads S d ms d') {vs : List Value} {k : ListKeyword}
    (hm : (key, .array vs) ∈ ms) (hk : listOf? key (.array vs) = some k) :
    List.Forall₂ S vs (d'.node.list k) ∨ ∃ m, After ms key m ∧ listOf? m.1 m.2 = some k := by
  obtain ⟨before, after, rfl⟩ := List.append_of_mem hm
  by_cases hlater : ∃ m ∈ after, listOf? m.1 m.2 = some k
  · obtain ⟨m, hm, hk⟩ := hlater
    exact .inr ⟨m, ⟨before, _, after, rfl, hm⟩, hk⟩
  · obtain ⟨d₁, -, h₁⟩ := h.append
    cases h₁ with
    | cons hids h₂ =>
      have hlist := h₂.eq_of_frame (φ := fun d => d.node.list k) fun m hm d ids =>
        d.list_read_of_ne fun hk => hlater ⟨m, hm, hk⟩
      simp only [Draft.subvalues_of_listOf? hk, Below.refill, Below.items] at hids hlist
      rw [hlist, Draft.list_read_self _ hk]
      exact .inl hids

/-- A map that a member fills holds its subschemas, but where a later member fills it again. -/
theorem Reads.map_of_mem (h : Reads S d ms d') (hkeys : (ms.map Prod.fst).Nodup)
    {es : List (String × Value)} (hes : (es.map Prod.fst).Nodup) {k : MapKeyword}
    (hm : (key, .object es) ∈ ms) (hk : mapOf? key (.object es) = some k) {e : String × Value}
    (he : e ∈ es) : (∃ c, (d'.node.map k).get? e.1 = some c ∧ S e.2 c) ∨
      ∃ m es', After ms key m ∧ mapOf? m.1 m.2 = some k ∧ m.2 = .object es' ∧
        e.1 ∈ es'.map Prod.fst := by
  obtain ⟨before, after, rfl⟩ := List.append_of_mem hm
  by_cases hlater : ∃ m ∈ after, ∃ es', mapOf? m.1 m.2 = some k ∧ m.2 = .object es' ∧
      e.1 ∈ es'.map Prod.fst
  · obtain ⟨m, hm, es', hrest⟩ := hlater
    exact .inr ⟨m, es', ⟨before, _, after, rfl, hm⟩, hrest⟩
  obtain ⟨d₁, -, h₁⟩ := h.append
  have hword : ∀ {word value k}, mapOf? word value = some k → k ≠ .defs → k.word = word := by
    intro word value k hk hne
    obtain ⟨_, -, hs⟩ := mapOf?_eq_some_iff.mp hk
    exact Slot.word_of_ofWord? hs fun he => hne (Slot.map.inj he)
  have hfresh : ∀ m ∈ after, m.1 ≠ key := by
    rw [List.map_append, List.map_cons, List.nodup_append, List.nodup_cons] at hkeys
    exact fun m hm he => hkeys.2.1.1 (List.mem_map.mpr ⟨m, hm, he⟩)
  -- Later members leave the entry: those with the same slot are definitions with other keys.
  have hframe : ∀ m ∈ after, ∀ (d : Draft) (ids : List NodeId),
      ((d.read m.1 m.2 ((subvalues m.1 m.2).refill ids)).node.map k).get? e.1 =
        (d.node.map k).get? e.1 := by
    rintro ⟨word, value⟩ hm d ids
    by_cases hk' : mapOf? word value = some k
    · obtain ⟨es', rfl, -⟩ := mapOf?_eq_some_iff.mp hk'
      have hdefs : k = .defs := by
        by_contra hne
        exact hfresh _ hm ((hword hk' hne).symm.trans (hword hk hne))
      have hnotMem : e.1 ∉ ((es'.map Prod.fst).zip ids).map Prod.fst := by
        intro he
        obtain ⟨x, hx, hxe⟩ := List.mem_map.mp he
        exact hlater ⟨_, hm, es', hk', rfl, hxe ▸ (List.of_mem_zip hx).1⟩
      rw [Draft.map_read_self _ hk', if_pos hdefs, OrderedMap.get?_insertAll_of_notMem hnotMem]
    · rw [Draft.map_read_of_ne _ hk']
  cases h₁ with
  | @cons _ _ _ _ _ ids hids h₂ =>
    rw [h₂.eq_of_frame (φ := fun d => (d.node.map k).get? e.1) hframe, Draft.map_read_self _ hk]
    obtain ⟨_, ⟨⟩, hs⟩ := mapOf?_eq_some_iff.mp hk
    simp only [subvalues, hs] at hids
    obtain ⟨c, hmem, hc⟩ := exists_mem_zip hids he
    have hzip : (((es.map Prod.fst).zip ids).map Prod.fst).Nodup := by
      have hlength := hids.length_eq
      rw [Slot.below, Below.items, List.length_map] at hlength
      rwa [List.map_fst_zip (Nat.le_of_eq ((List.length_map _).trans hlength))]
    refine .inl ⟨c, ?_, hc⟩
    rw [OrderedMap.get?_insertAll, Entries.get?_reverse _ hzip, Entries.get?_of_mem hzip hmem]
    rfl

end

/-! ## What is kept -/

/-- What a member may be kept among. -/
inductive Keeping where
  | extension
  | note
  | custom
deriving DecidableEq

/-- What a node keeps verbatim. -/
def Node.kept (n : Node) : Keeping → OrderedMap Value
  | .extension => n.extensions
  | .note => n.annotations
  | .custom => n.custom

/-- Whether the members declare types. -/
def declaresTypes (ms : List (String × Value)) : Bool :=
  !(declaredTypes (Entries.get? "type" ms)).isEmpty

/-- Whether a member is kept among these. -/
def Keeping.keeps (ms : List (String × Value)) (key : String) (value : Value) : Keeping → Bool
  | .extension => Text.startsWith "x-" key
  | .note => annotationWords.contains key ||
    (key == "nullable" && value.bool?.isSome && !declaresTypes ms)
  | .custom => isKept key value ||
    (key == "additionalItems" && !(listsItems ms && isSchema value))

/-- Without types, a `nullable` that is no boolean is kept twice. -/
def KeptTwice (ms : List (String × Value)) (key : String) : Prop :=
  key = "nullable" ∧ declaresTypes ms = false ∧
    ∃ v, Entries.get? "nullable" ms = some v ∧ v.bool? = none

section

variable {ms : List (String × Value)} {key : String} {value : Value}

theorem Keeping.keeps_extension :
    extension.keeps ms key value ↔ Text.startsWith "x-" key := .rfl

theorem Keeping.keeps_note : note.keeps ms key value ↔ key ∈ annotationWords ∨
    key = "nullable" ∧ value.bool?.isSome ∧ declaresTypes ms = false := by
  simp [keeps, and_assoc]

theorem Keeping.keeps_custom : custom.keeps ms key value ↔ isKept key value ∨
    key = "additionalItems" ∧ (listsItems ms && isSchema value) = false := by
  simp only [keeps, Bool.or_eq_true, Bool.and_eq_true, beq_iff_eq, Bool.not_eq_true']

theorem not_extension {word : String}
    (h : word ∈ "nullable" :: "additionalItems" :: annotationWords) :
    Text.startsWith "x-" word = false := by
  have hall : ∀ word ∈ "nullable" :: "additionalItems" :: annotationWords,
      Text.startsWith "x-" word = false := by decide +kernel
  exact hall word h

/-- A member is kept once. -/
theorem Keeping.eq_of_keeps {p q : Keeping} (hp : p.keeps ms key value)
    (hq : q.keeps ms key value) : p = q := by
  have extension_note : ¬ (extension.keeps ms key value ∧ note.keeps ms key value) := by
    rintro ⟨hx, ha⟩
    have hword : key ∈ "nullable" :: "additionalItems" :: annotationWords := by
      rcases keeps_note.mp ha with ha | ⟨rfl, -⟩
      · exact List.mem_cons_of_mem _ (List.mem_cons_of_mem _ ha)
      · exact List.mem_cons_self
    rw [keeps_extension, not_extension hword] at hx
    cases hx
  have extension_custom : ¬ (extension.keeps ms key value ∧ custom.keeps ms key value) := by
    rintro ⟨hx, hc⟩
    rw [keeps_extension] at hx
    rcases keeps_custom.mp hc with hc | ⟨rfl, -⟩
    · rw [isKept_eq_false (.inl hx)] at hc
      cases hc
    · rw [not_extension (List.mem_cons_of_mem _ List.mem_cons_self)] at hx
      cases hx
  have note_custom : ¬ (note.keeps ms key value ∧ custom.keeps ms key value) := by
    rintro ⟨ha, hc⟩
    rcases keeps_note.mp ha with ha | ⟨rfl, hb, -⟩ <;>
      rcases keeps_custom.mp hc with hc | ⟨hc, -⟩
    · rw [isKept_eq_false (.inr (.inl (List.contains_iff_mem.mpr ha)))] at hc
      cases hc
    · subst hc
      exact absurd ha (by decide)
    · rw [isKept_nullable, Option.isNone_iff_eq_none] at hc
      rw [hc] at hb
      cases hb
    · exact absurd hc (by decide)
  cases p <;> cases q <;> first | rfl | tauto

theorem get?_singleton_of_ne {α : Type} {word : String} (h : word ≠ key) (a : α) :
    Entries.get? key [(word, a)] = none := by
  rw [Entries.get?, if_neg h]
  rfl

theorem get?_nullableNote (h : key ≠ "nullable") : Entries.get? key (nullableNote ms) = none := by
  rw [nullableNote]
  split
  · exact get?_singleton_of_ne h.symm _
  · rfl

theorem get?_additionalNote (h : key ≠ "additionalItems") :
    Entries.get? key (additionalNote ms) = none := by
  rcases additionalNote_eq ms with hnote | ⟨v, hnote⟩ <;> rw [hnote]
  · rfl
  · exact get?_singleton_of_ne h.symm v

/-- The note of `nullable` holds the boolean of the member, if there are no types. -/
theorem get?_nullableNote_self (honce : ¬ KeptTwice ms "nullable") :
    Entries.get? "nullable" (nullableNote ms) = (Entries.get? "nullable" ms).filter fun v =>
      v.bool?.isSome && !declaresTypes ms := by
  rw [nullableNote, declaresTypes, Bool.not_not]
  cases hget : Entries.get? "nullable" ms with
  | none => rfl
  | some v =>
    cases ht : (declaredTypes (Entries.get? "type" ms)).isEmpty with
    | false => simp [Entries.get?]
    | true =>
      cases hb : v.bool? with
      | none => exact absurd ⟨rfl, by rw [declaresTypes, ht]; rfl, v, hget, hb⟩ honce
      | some b =>
        have hv : v = .bool b := by cases v <;> cases hb; rfl
        subst hv
        simp [allowsNull, hget, Entries.get?, Value.bool?, Option.filter_some]

theorem get?_additionalNote_self : Entries.get? "additionalItems" (additionalNote ms) =
    (Entries.get? "additionalItems" ms).filter fun v => !(listsItems ms && isSchema v) := by
  rw [additionalNote]
  cases Entries.get? "additionalItems" ms with
  | none => rfl
  | some v =>
    rw [Option.filter_some]
    cases h : listsItems ms && isSchema v <;> simp [Entries.get?, h]

end

/-- The entry under a key if the members have it and it is kept so. -/
theorem ReadsObject.get?_kept {S : Value → NodeId → Prop} {ms : List (String × Value)} {n : Node}
    (h : ReadsObject S ms n) (hkeys : (ms.map Prod.fst).Nodup) {key : String}
    (honce : ¬ KeptTwice ms key) (p : Keeping) :
    (n.kept p).get? key = (Entries.get? key ms).filter (p.keeps ms key ·) := by
  cases p with
  | extension =>
    rw [Node.kept, OrderedMap.get?, h.extensions hkeys, Entries.get?_filter hkeys]
    rfl
  | note =>
    rw [Node.kept, OrderedMap.get?, h.annotations hkeys, Entries.get?_append,
      Entries.get?_filter hkeys]
    by_cases hn : key = "nullable"
    · subst hn
      have hwords : annotationWords.contains "nullable" = false := by decide
      rw [get?_nullableNote_self honce]
      cases Entries.get? "nullable" ms <;> simp only [Keeping.keeps, Option.filter_some,
        Option.filter_none, hwords] <;> rfl
    · rw [get?_nullableNote hn, Option.or_none]
      simp only [Keeping.keeps, beq_eq_false_iff_ne.mpr hn, Bool.false_and, Bool.or_false]
  | custom =>
    rw [Node.kept, OrderedMap.get?, h.custom hkeys, Entries.get?_append,
      Entries.get?_filter hkeys]
    by_cases hn : key = "additionalItems"
    · subst hn
      have hkept : ∀ v, isKept "additionalItems" v = false := fun v =>
        isKept_eq_false (.inr (.inr rfl))
      rw [get?_additionalNote_self]
      cases Entries.get? "additionalItems" ms <;> simp only [Keeping.keeps, Option.filter_some,
        Option.filter_none, hkept] <;> rfl
    · rw [get?_additionalNote hn, Option.or_none]
      simp only [Keeping.keeps, beq_eq_false_iff_ne.mpr hn, Bool.false_and, Bool.or_false]

/-! ## Declared types -/

/-- Declared types are those shown. -/
theorem ReadsObject.types_of_declaresTypes {S : Value → NodeId → Prop}
    {ms : List (String × Value)} {n : Node} (h : ReadsObject S ms n)
    (hkeys : (ms.map Prod.fst).Nodup) (htypes : declaresTypes ms) : n.types = shownTypes ms := by
  rw [declaresTypes, Bool.not_eq_true'] at htypes
  have heq := h.types hkeys
  rw [isEmpty_shownTypes, htypes, Bool.false_and, Bool.false_and, if_neg Bool.false_ne_true] at heq
  exact (Prod.mk.inj heq).1

/-- The declared types are among those of the node. -/
theorem ReadsObject.withPlain?_type {S : Value → NodeId → Prop} {ms : List (String × Value)}
    {n : Node} (h : ReadsObject S ms n) (hkeys : (ms.map Prod.fst).Nodup) {value : Value}
    (hget : Entries.get? "type" ms = some value) (hfits : Keyword.type.fits value) :
    n.withPlain? .type value = some n := by
  rw [← n.isSome_withPlain?, Node.withPlain?, Option.isSome_map] at hfits
  obtain ⟨names, hnames⟩ := Option.isSome_iff_exists.mp hfits
  have hdeclared : declaredTypes (Entries.get? "type" ms) = .ofList names := by
    rw [hget, declaredTypes, Option.bind_some, hnames, Option.getD_some]
  have hsubset : ∀ name ∈ names, name ∈ n.types.names := by
    intro name hmem
    have hname : name ∈ (declaredTypes (Entries.get? "type" ms)).names :=
      hdeclared ▸ TypeSet.mem_insertAll.mpr (.inr hmem)
    have htypes : declaresTypes ms := by
      rw [declaresTypes, Bool.not_eq_true', TypeSet.isEmpty, List.isEmpty_eq_false_iff]
      exact List.ne_nil_of_mem hname
    rw [h.types_of_declaresTypes hkeys htypes, shownTypes]
    split
    · exact TypeSet.mem_insert.mpr (.inl hname)
    · exact hname
  rw [Node.withPlain?, hnames, Option.map_some, TypeSet.insertAll_of_subset hsubset]

/-! ## What is taken -/

/-- A node takes a member in the field that its key names: a keyword without subschemas is read as
what the field holds already, and subschemas stand in the slot. Where a later member fills the same
slot, its subschemas stand there. -/
inductive Takes (g : Graph) (ms : List (String × Value)) (n : Node) (key : String) : Value → Prop
  | plain {k : Keyword} {v : Value} : Keyword.ofWord? key = some k → n.withPlain? k v = some n →
    Takes g ms n key v
  | child {k : ChildKeyword} {v : Value} {c : NodeId} : Slot.ofWord? key = some (.child k) →
    n.child k = some c → g.Stores v c → Takes g ms n key v
  | furtherItems {v : Value} {c : NodeId} : key = "additionalItems" → listsItems ms →
    n.child .items = some c → g.Stores v c → Takes g ms n key v
  | list {k : ListKeyword} {vs : List Value} : listOf? key (.array vs) = some k →
    (List.Forall₂ g.Stores vs (n.list k) ∨ ∃ m, After ms key m ∧ listOf? m.1 m.2 = some k) →
    Takes g ms n key (.array vs)
  | map {k : MapKeyword} {es : List (String × Value)} : mapOf? key (.object es) = some k →
    (∀ e ∈ es, (∃ c, (n.map k).get? e.1 = some c ∧ g.Stores e.2 c) ∨
      ∃ m es', After ms key m ∧ mapOf? m.1 m.2 = some k ∧ m.2 = .object es' ∧
        e.1 ∈ es'.map Prod.fst) → Takes g ms n key (.object es)
  | nullable {b : Bool} : key = "nullable" → declaresTypes ms → n.types = shownTypes ms →
    Takes g ms n key (.bool b)

section

variable {g : Graph} {ms : List (String × Value)} {n : Node} {key : String} {value : Value}

/-- The word of a keyword is kept among the custom keywords, if at all. -/
theorem exists_keeps_of_not_isReserved (h : isReserved key = false) :
    (∃ p : Keeping, p.keeps ms key value) ↔ isKept key value := by
  obtain ⟨hx, ha, hn, hi⟩ := isReserved_eq_false_iff.mp h
  have ha : key ∉ annotationWords := by simpa using ha
  refine ⟨?_, fun hc => ⟨.custom, Keeping.keeps_custom.mpr (.inl hc)⟩⟩
  rintro ⟨p, hp⟩
  cases p with
  | extension =>
    rw [Keeping.keeps_extension, hx] at hp
    cases hp
  | note => exact (Keeping.keeps_note.mp hp).elim (absurd · ha) fun h => absurd h.1 hn
  | custom => simpa [Keeping.keeps, beq_eq_false_iff_ne.mpr hi] using hp

/-- What is taken is not kept. -/
theorem Takes.not_keeps (h : Takes g ms n key value) : ¬ ∃ p : Keeping, p.keeps ms key value := by
  have slot : ∀ {s}, Slot.ofWord? key = some s → (s.below value).isNothing = false →
      ¬ ∃ p : Keeping, p.keeps ms key value := by
    intro s hs hb
    rw [exists_keeps_of_not_isReserved (Slot.not_isReserved_of_ofWord? hs), isKept, hs]
    simp only [hb, Bool.false_eq_true, not_false_eq_true]
  cases h with
  | @plain k _ hk hw =>
    have hp : k.isPlain := by
      cases k with
      | slot => cases hw
      | _ => rfl
    rw [exists_keeps_of_not_isReserved (Keyword.word_of_ofWord? hk ▸ k.not_isReserved),
      isKept_plain hk hp, ← n.isSome_withPlain?, hw]
    exact Bool.false_ne_true
  | @child k _ c hs _ hv =>
    refine slot hs ?_
    rcases Slot.below_child k value with ⟨-, hb⟩ | ⟨_, -, -, hb⟩ | ⟨hfalse, -⟩
    · rw [hb]
      rfl
    · rw [hb]
      rfl
    · rw [hv.isSchema] at hfalse
      cases hfalse
  | furtherItems hkey hl _ hv =>
    subst hkey
    rintro ⟨p, hp⟩
    cases p with
    | extension => cases hp
    | note => cases hp
    | custom => simp [Keeping.keeps, isKept_eq_false, hl, hv.isSchema] at hp
  | list hk =>
    obtain ⟨_, s, ⟨⟩, hs, htarget⟩ := listOf?_eq_some_iff.mp hk
    refine slot hs ?_
    rcases s with k' | k' | k'
    · cases k' <;> first | rfl | cases htarget
    · rfl
    · cases htarget
  | map hk =>
    obtain ⟨_, ⟨⟩, hs⟩ := mapOf?_eq_some_iff.mp hk
    exact slot hs rfl
  | nullable hkey htypes =>
    subst hkey
    rintro ⟨p, hp⟩
    cases p with
    | extension => cases hp
    | note => simp [Keeping.keeps, htypes, annotationWords] at hp
    | custom => simp [Keeping.keeps, isKept_nullable, Value.bool?] at hp

end

section

variable {g : Graph} {ms : List (String × Value)} {n : Node} {key : String} {value : Value}

/-- A node has the lists and maps of a draft of the members. -/
theorem ReadsObject.exists_reads {S : Value → NodeId → Prop} (h : ReadsObject S ms n)
    (hkeys : (ms.map Prod.fst).Nodup) :
    ∃ d, Reads S {} ms d ∧ n.list = d.node.list ∧ n.map = d.node.map := by
  obtain ⟨d, child, hd, rfl, -⟩ := h.exists_draft hkeys
  obtain ⟨_, _, _, he⟩ := Draft.finish_eq _ ms
  rw [he]
  exact ⟨d, hd, rfl, rfl⟩

theorem ReadsObject.takes_child (h : ReadsObject g.Stores ms n) (hkeys : (ms.map Prod.fst).Nodup)
    (hget : Entries.get? key ms = some value) {k : ChildKeyword}
    (hs : Slot.ofWord? key = some (.child k)) (hv : isSchema value) : Takes g ms n key value := by
  obtain rfl : k.word = key := Slot.word_of_ofWord? hs nofun
  have hsource : childSource ms k = some value := by
    rw [childSource, if_neg, hget]
    rintro ⟨rfl, hl⟩
    have hitems : value.items? = none := by cases value <;> first | rfl | cases hv
    rw [listsItems, show Entries.get? "items" ms = some value from hget, Option.bind_some,
      hitems] at hl
    cases hl
  have hchild := h.child hkeys k
  rw [hsource, Option.filter_some, if_pos hv] at hchild
  cases hc : n.child k with
  | none =>
    rw [hc] at hchild
    cases hchild
  | some c =>
    rw [hc] at hchild
    cases hchild with
    | some hstored => exact .child hs hc hstored

theorem ReadsObject.takes_furtherItems (h : ReadsObject g.Stores ms n)
    (hkeys : (ms.map Prod.fst).Nodup) (hget : Entries.get? "additionalItems" ms = some value)
    (hl : listsItems ms) (hv : isSchema value) : Takes g ms n "additionalItems" value := by
  have hchild := h.child hkeys .items
  rw [childSource, if_pos ⟨rfl, hl⟩, hget, Option.filter_some, if_pos hv] at hchild
  cases hc : n.child .items with
  | none =>
    rw [hc] at hchild
    cases hchild
  | some c =>
    rw [hc] at hchild
    cases hchild with
    | some hstored => exact .furtherItems rfl hl hc hstored

/-- The subschemas of a keyword are taken. -/
theorem ReadsObject.takes_slot (h : ReadsObject g.Stores ms n)
    (hkeys : (Value.object ms).DistinctKeys) (hget : Entries.get? key ms = some value) {s : Slot}
    (hs : Slot.ofWord? key = some s) (hbelow : (s.below value).isNothing = false) :
    Takes g ms n key value := by
  have hm := Entries.mem_of_get? hget
  obtain ⟨d, hd, hlist, hmap⟩ := h.exists_reads hkeys.1
  have list : ∀ {k vs}, value = .array vs → s.target value = .list k →
      Takes g ms n key value := by
    rintro k vs rfl htarget
    have hk := listOf?_eq_some_iff.mpr ⟨vs, s, rfl, hs, htarget⟩
    exact .list hk (hlist ▸ hd.list_of_mem hm hk)
  rcases s with k | k | k
  · rcases Slot.below_child k value with ⟨hv, -⟩ | ⟨vs, rfl, hv, -⟩ | ⟨-, -, hb⟩
    · exact h.takes_child hkeys.1 hget hs hv
    · exact list hv (by rw [hv]; rfl)
    · rw [hb] at hbelow
      cases hbelow
  · cases value with
    | array vs => exact list rfl rfl
    | _ => cases hbelow
  · cases value with
    | object es =>
      have hk := mapOf?_eq_some_iff.mpr ⟨es, rfl, hs⟩
      have hes := (distinctKeys_of_mem_members hkeys.2 hm).1
      exact .map hk fun e he => hmap ▸ hd.map_of_mem hkeys.1 hes hm hk he
    | _ => cases hbelow

theorem ReadsObject.takes_plain (h : ReadsObject g.Stores ms n) (hkeys : (ms.map Prod.fst).Nodup)
    (hget : Entries.get? key ms = some value) {k : Keyword} (hk : Keyword.ofWord? key = some k)
    (hp : k.isPlain) (hfits : k.fits value) : Takes g ms n key value := by
  obtain rfl := Keyword.word_of_ofWord? hk
  by_cases htype : k = .type
  · subst htype
    exact .plain hk (h.withPlain?_type hkeys hget hfits)
  · have hvalue := h.plainValue? hkeys hp htype
    rw [hget, Option.bind_some] at hvalue
    exact .plain hk (Node.withPlain?_eq_self htype hfits hvalue)

/-- What is not kept is taken. -/
theorem ReadsObject.takes (h : ReadsObject g.Stores ms n)
    (hkeys : (Value.object ms).DistinctKeys) (hget : Entries.get? key ms = some value)
    (hnone : ¬ ∃ p : Keeping, p.keeps ms key value) : Takes g ms n key value := by
  obtain ⟨hx, hnoted, hcustom⟩ : ¬ Text.startsWith "x-" key ∧
      ¬ Keeping.note.keeps ms key value ∧ ¬ Keeping.custom.keeps ms key value :=
    ⟨fun hp => hnone ⟨.extension, hp⟩, fun hp => hnone ⟨.note, hp⟩,
      fun hp => hnone ⟨.custom, hp⟩⟩
  rw [Keeping.keeps_note, not_or] at hnoted
  rw [Keeping.keeps_custom, not_or] at hcustom
  have hkept : isKept key value = false := by simpa using hcustom.1
  by_cases hadditional : key = "additionalItems"
  · subst hadditional
    obtain ⟨hl, hv⟩ : listsItems ms ∧ isSchema value := by simpa using hcustom.2
    exact h.takes_furtherItems hkeys.1 hget hl hv
  by_cases hnullable : key = "nullable"
  · subst hnullable
    rw [isKept_nullable, Option.isNone_eq_false_iff] at hkept
    have htypes : declaresTypes ms := by simpa [hkept] using hnoted.2
    cases value with
    | bool b => exact .nullable rfl htypes (h.types_of_declaresTypes hkeys.1 htypes)
    | _ => cases hkept
  rw [isKept] at hkept
  split at hkept
  next s hs => exact h.takes_slot hkeys hget hs hkept
  next hs =>
    have ha : annotationWords.contains key = false := by simpa using hnoted.1
    simp only [hx, ha, Bool.or_self, Bool.false_eq_true, hnullable, hadditional,
      ↓reduceIte] at hkept
    split at hkept
    next k hk =>
      have hp : k.isPlain := by
        cases k with
        | slot s => rw [Slot.ofWord?_of_keyword hk] at hs; cases hs
        | _ => rfl
      exact h.takes_plain hkeys.1 hget hk hp (by simpa using hkept)
    next => cases hkept

theorem ReadsObject.takes_iff (h : ReadsObject g.Stores ms n)
    (hkeys : (Value.object ms).DistinctKeys) (hget : Entries.get? key ms = some value) :
    Takes g ms n key value ↔ ¬ ∃ p : Keeping, p.keeps ms key value :=
  ⟨Takes.not_keeps, h.takes hkeys hget⟩

end

/-- A key lands in one place: it is kept as it is, once at most, or it is taken, but not both. -/
structure LandsOnce (g : Graph) (ms : List (String × Value)) (n : Node) (key : String) : Prop where
  verbatim : ∀ p v, (n.kept p).get? key = some v → Entries.get? key ms = some v
  disjoint : ∀ p q, (n.kept p).contains key → (n.kept q).contains key → p = q
  complete : ∀ v, Entries.get? key ms = some v →
    ((∃ p, (n.kept p).contains key) ↔ ¬ Takes g ms n key v)

/-! ## One place for every key -/

section

variable {g : Graph} {ms : List (String × Value)} {n : Node} {key : String}

theorem ReadsObject.landsOnce (h : ReadsObject g.Stores ms n)
    (hkeys : (Value.object ms).DistinctKeys) (honce : ¬ KeptTwice ms key) :
    LandsOnce g ms n key := by
  have hkept := h.get?_kept hkeys.1 honce
  have hcontains : ∀ p, (n.kept p).contains key ↔
      ∃ v, Entries.get? key ms = some v ∧ p.keeps ms key v := by
    intro p
    rw [OrderedMap.contains, hkept, Option.isSome_iff_exists]
    simp [Option.filter_eq_some_iff]
  refine ⟨fun p v hv => ?_, fun p q hp hq => ?_, fun v hv => ?_⟩
  · rw [hkept] at hv
    exact (Option.filter_eq_some_iff.mp hv).1
  · obtain ⟨v, hv, hp⟩ := (hcontains p).mp hp
    obtain ⟨v', hv', hq⟩ := (hcontains q).mp hq
    rw [hv] at hv'
    cases hv'
    exact Keeping.eq_of_keeps hp hq
  · rw [h.takes_iff hkeys hv, not_not]
    refine exists_congr fun p => ?_
    rw [hcontains, hv]
    simp

/-- A `nullable` that is no boolean is an annotation with another value, if there are no types. -/
theorem ReadsObject.not_landsOnce (h : ReadsObject g.Stores ms n)
    (hkeys : (ms.map Prod.fst).Nodup) (htwice : KeptTwice ms key) : ¬ LandsOnce g ms n key := by
  obtain ⟨rfl, htypes, v, hget, hv⟩ := htwice
  intro hlands
  have hnote : (n.kept .note).get? "nullable" = some (.bool false) := by
    have hfilter : (Entries.get? "nullable" ms).filter
        (fun _ => annotationWords.contains "nullable") = none := by
      rw [hget]
      rfl
    rw [declaresTypes, Bool.not_eq_false'] at htypes
    rw [Node.kept, OrderedMap.get?, h.annotations hkeys, Entries.get?_append,
      Entries.get?_filter hkeys, hfilter, nullableNote, htypes, allowsNull, hget]
    simp [hv, Entries.get?]
  have hverbatim := hlands.verbatim _ _ hnote
  rw [hget] at hverbatim
  cases hverbatim
  cases hv

/-- Every key of an object that was loaded lands in one place, and no other key in any, but for a
`nullable` that is no boolean in an object without types. -/
theorem Graph.Stores.landsOnce_iff {id : NodeId} (h : g.Stores (.object ms) id)
    (hkeys : (Value.object ms).DistinctKeys) :
    ∃ n, g.node? id = some n ∧ ∀ key, LandsOnce g ms n key ↔ ¬ KeptTwice ms key := by
  obtain ⟨n, hn, hr⟩ := h.object
  refine ⟨n, hn, fun key => ⟨fun hlands htwice => ?_, hr.landsOnce hkeys⟩⟩
  exact hr.not_landsOnce hkeys.1 htwice hlands

end

namespace Graph

/-- A schema with members of every fate: kept in three places, taken in older and newer forms. -/
def mixedMembers : List (String × Value) :=
  [("x-a", .null), ("title", .string "t"), ("minLength", .string "y"), ("type", .string "array"),
    ("nullable", .bool true), ("prefixItems", .array []), ("items", .array [.bool true]),
    ("additionalItems", .bool false)]

theorem landsOnce_mixedMembers : ∃ g id, ofValue (.object mixedMembers) = .ok g ∧
    g.Stores (.object mixedMembers) id ∧ (Value.object mixedMembers).DistinctKeys ∧
    ∃ n, g.node? id = some n ∧
      ∀ key, LandsOnce g mixedMembers n key ↔ ¬ KeptTwice mixedMembers key := by
  have hkeys : (Value.object mixedMembers).DistinctKeys := by
    simp [Value.DistinctKeys, Value.DistinctKeysMembers, Value.DistinctKeysList, mixedMembers]
  have hok : (ofValue (.object mixedMembers)).isOk := by decide +kernel
  obtain ⟨g, root, hg, -, hs⟩ := exists_stores_of_isOk hok
  exact ⟨g, root, hg, hs, hkeys, hs.landsOnce_iff hkeys⟩

/-- Not every key lands in one place: without types, a text under `nullable` is kept as a custom
keyword, and as an annotation that says `false`. -/
theorem not_landsOnce_nullable : ¬ ∀ (ms : List (String × Value)) (g : Graph) (root : NodeId)
    (n : Node), (Value.object ms).DistinctKeys → ofValue (.object ms) = .ok g →
    g.root? = some root → g.node? root = some n → ∀ key, LandsOnce g ms n key := by
  intro hall
  have hkeys : (Value.object [("nullable", .string "yes")]).DistinctKeys := by
    simp [Value.DistinctKeys, Value.DistinctKeysMembers]
  have hok : (ofValue (.object [("nullable", .string "yes")])).isOk := by decide +kernel
  obtain ⟨g, root, hg, hroot, hs⟩ := exists_stores_of_isOk hok
  obtain ⟨n, hn, hr⟩ := hs.object
  have htwice : KeptTwice [("nullable", .string "yes")] "nullable" :=
    ⟨rfl, rfl, .string "yes", rfl, rfl⟩
  exact hr.not_landsOnce hkeys.1 htwice (hall _ g root n hkeys hg hroot hn "nullable")

end Graph

end OpenApi.Schema
