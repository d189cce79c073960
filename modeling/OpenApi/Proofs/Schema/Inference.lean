import OpenApi.Proofs.Schema.Enumeration
import OpenApi.Proofs.Schema.Placement

/-!
# Types by keywords

The types that are inferred for an object, told from its members: an order of precedence
(`precedence`) over the keywords that are present.

* `Node.inferredTypes_eq`: a node's types follow the order of precedence over what it has;
* `ReadsObject.has_eq`: a node has the keywords whose members fill it;
* `Graph.Stores.types_eq_precedence`: the types of an object that was loaded.
-/

namespace OpenApi.Schema

open Json

/-! ## Presence -/

/-- Whether a value is of the kind of a keyword. -/
def Keyword.accepts (k : Keyword) (value : Value) : Bool :=
  match k with
  | .text _ => value.string?.isSome
  | .number _ => value.number?.isSome
  | .bound _ => value.number?.isSome || value.bool?.isSome
  | .count _ => value.nat?.isSome
  | .slot (.child k) => isSchema value || (k == .items && value.items?.isSome)
  | .slot (.list _) => value.items?.isSome
  | .slot (.map _) => value.members?.isSome
  | .type => value.string?.isSome || value.strings?.isSome
  | .enumeration => value.items?.isSome
  | .constant => true
  | .uniqueItems => value.bool?.isSome
  | .required => value.strings?.isSome

/-- Whether a keyword of the right kind is present among members, `required` with a name at
least. -/
def present (ms : List (String × Value)) : Keyword → Bool
  | .required => ((Entries.get? "required" ms).bind Value.strings?).any (!·.isEmpty)
  | k => (Entries.get? k.word ms).any k.accepts

/-! ## Precedence -/

/-- Keywords about arrays. -/
def arrayKeywords : List Keyword :=
  [.slot (.child .items), .slot (.list .prefixItems), .slot (.child .contains), .count .minItems,
    .count .maxItems, .uniqueItems]

/-- Keywords about objects. -/
def objectKeywords : List Keyword :=
  [.slot (.map .properties), .slot (.child .additionalProperties), .slot (.map .patternProperties),
    .slot (.child .propertyNames), .slot (.map .dependentSchemas), .count .minProperties,
    .count .maxProperties, .required]

/-- Keywords about numbers. -/
def numberKeywords : List Keyword :=
  [.number .minimum, .number .maximum, .number .multipleOf, .bound .exclusiveMinimum,
    .bound .exclusiveMaximum]

/-- Keywords about strings. -/
def stringKeywords : List Keyword :=
  [.count .minLength, .count .maxLength, .text .pattern, .text .contentEncoding,
    .text .contentMediaType, .text .format]

/-- The types that keywords imply, the first in the order of precedence counting. -/
def precedence (has : Keyword → Bool) (constant : Option Value)
    (enumeration : Option (List Value)) : TypeSet :=
  if arrayKeywords.any has then .single "array"
  else if objectKeywords.any has then .single "object"
  else
    match constant, enumeration with
    | some value, _ => .single (jsonType value)
    | none, some values => sharedTypes values
    | none, none =>
      if numberKeywords.any has then .single "number"
      else if stringKeywords.any has then .single "string"
      else .empty

/-- Whether a node has a keyword. -/
def Node.has (n : Node) : Keyword → Bool
  | .slot s => !(n.slot s).isEmpty
  | k => (n.plainValue? k).isSome

/-- A node without a reference has the types of its keywords. -/
theorem Node.inferredTypes_eq {n : Node} (h : n.meaning = .inline) :
    n.inferredTypes = precedence n.has n.constant n.enumeration := by
  have hchild (k) : n.has (.slot (.child k)) = (n.child k).isSome := by
    rw [has, slot]
    cases n.child k <;> rfl
  have hlist (k) : n.has (.slot (.list k)) = !(n.list k).isEmpty := rfl
  have hmap (k) : n.has (.slot (.map k)) = !(n.map k).isEmpty := by
    rw [has, slot, OrderedMap.values, List.isEmpty_map, OrderedMap.isEmpty]
  have htext (k) : n.has (.text k) = (n.text k).isSome := Option.isSome_map
  have hnumber (k) : n.has (.number k) = (n.number k).isSome := Option.isSome_map
  have hbound (k) : n.has (.bound k) = (n.bound k).isSome := rfl
  have hcount (k) : n.has (.count k) = (n.count k).isSome := Option.isSome_map
  have hunique : n.has .uniqueItems = n.uniqueItems.isSome := Option.isSome_map
  have hrequired : n.has .required = !n.required.isEmpty := by
    show Option.isSome (ite _ _ _) = _
    cases n.required.isEmpty <;> rfl
  have harray : arrayKeywords.any n.has = n.hasArrayKeyword := by
    simp only [arrayKeywords, List.any_cons, List.any_nil, hchild, hlist, hcount, hunique,
      Bool.or_false, hasArrayKeyword, Bool.or_assoc]
  have hobject : objectKeywords.any n.has = n.hasObjectKeyword := by
    simp only [objectKeywords, List.any_cons, List.any_nil, hchild, hmap, hcount, hrequired,
      Bool.or_false, hasObjectKeyword, Bool.or_assoc]
  have hnumeric : numberKeywords.any n.has = n.hasNumberKeyword := by
    simp only [numberKeywords, List.any_cons, List.any_nil, hnumber, hbound, Bool.or_false,
      hasNumberKeyword, Bool.or_assoc]
  have hstring : stringKeywords.any n.has = n.hasStringKeyword := by
    simp only [stringKeywords, List.any_cons, List.any_nil, hcount, htext, Bool.or_false,
      hasStringKeyword, Bool.or_assoc]
  simp only [inferredTypes, h, precedence, harray, hobject, hnumeric, hstring]
  cases n.constant with
  | some value => rfl
  | none =>
    cases n.enumeration with
    | some values => simp only [enumerationTypes_eq]
    | none => rfl

/-! ## Members that fill places -/

/-- The items of a member that fills a list. -/
def itemsFor? (k : ListKeyword) (m : String × Value) : Option (List Value) :=
  if listOf? m.1 m.2 = some k then m.2.items? else none

/-- The subschemas of the last member that fills a list. -/
def lastList (k : ListKeyword) (ms : List (String × Value)) : List Value :=
  ((ms.filterMap (itemsFor? k)).getLast?).getD []

/-- Whether members put anything in the place of a keyword. An empty list or map is nothing, the
last list of prefix items counts, and further items are items. -/
def filled (ms : List (String × Value)) : Keyword → Bool
  | .slot (.child k) => ((childSource ms k).filter (isSchema ·)).isSome
  | .slot (.list k) => !(lastList k ms).isEmpty
  | .slot (.map k) => !(((Entries.get? k.word ms).bind Value.members?).getD []).isEmpty
  | k => present ms k

section

variable {S : Value → NodeId → Prop} {ms : List (String × Value)} {n : Node}

/-- Each member that fills a list replaces what earlier ones left there. -/
theorem Reads.lastList {d d' : Draft} (h : Reads S d ms d') {k : ListKeyword} {vs : List Value}
    (hd : List.Forall₂ S vs (d.node.list k)) :
    List.Forall₂ S (((ms.filterMap (itemsFor? k)).getLast?).getD vs) (d'.node.list k) := by
  induction h generalizing vs with
  | nil => exact hd
  | @cons d d' key value rest ids hids _ ih =>
    by_cases hk : listOf? key value = some k
    · obtain ⟨vs', _, rfl, -⟩ := listOf?_eq_some_iff.mp hk
      have hitems : itemsFor? k (key, .array vs') = some vs' := if_pos hk
      rw [List.filterMap_cons_some hitems, List.getLast?_cons, Option.getD_some]
      simp only [Draft.subvalues_of_listOf? hk, Below.refill, Below.items] at hids ih
      refine ih ?_
      rw [Draft.list_read_self _ hk]
      exact hids
    · have hitems : itemsFor? k (key, value) = none := if_neg hk
      rw [List.filterMap_cons_none hitems]
      refine ih ?_
      rw [Draft.list_read_of_ne _ hk]
      exact hd

theorem ReadsObject.lastList (h : ReadsObject S ms n) (hkeys : (ms.map Prod.fst).Nodup)
    (k : ListKeyword) : List.Forall₂ S (lastList k ms) (n.list k) := by
  obtain ⟨d, hd, hlist, -⟩ := h.exists_reads hkeys
  have hempty : List.Forall₂ S [] (({} : Draft).node.list k) := .nil
  rw [hlist]
  exact hd.lastList hempty

theorem isSome_bind_map {α β γ : Type} {o : Option α} {f : α → β} {read : β → Option γ}
    (h : ∀ a, (read (f a)).isSome) : ((o.map f).bind read).isSome = o.isSome := by
  cases o with
  | none => rfl
  | some a => exact h a

/-- A value of the right kind has a normal form. A list of required names also needs a name. -/
theorem isSome_normal? {k : Keyword} (hp : k.isPlain) (ht : k ≠ .type) (hr : k ≠ .required)
    (value : Value) : (k.normal? value).isSome = k.accepts value := by
  cases k with
  | slot => cases hp
  | type => exact absurd rfl ht
  | required => exact absurd rfl hr
  | constant => rfl
  | bound k =>
    cases value <;> simp [Keyword.normal?, Node.withPlain?, Node.plainValue?, Keyword.accepts,
      boundOf?, Value.number?, Value.bool?]
  | text | number | count | enumeration | uniqueItems =>
    exact isSome_bind_map fun _ => by simp [Node.plainValue?]

theorem isSome_normal?_required (value : Value) :
    (Keyword.required.normal? value).isSome = value.strings?.any (!·.isEmpty) := by
  cases hs : value.strings? with
  | none => simp [Keyword.normal?, Node.withPlain?, hs]
  | some names =>
    cases names <;> simp [Keyword.normal?, Node.withPlain?, Node.plainValue?, hs]

theorem ReadsObject.has_plain (h : ReadsObject S ms n) (hkeys : (ms.map Prod.fst).Nodup)
    {k : Keyword} (hp : k.isPlain) (ht : k ≠ .type) : n.has k = present ms k := by
  have hhas : n.has k = (n.plainValue? k).isSome := by
    cases k with
    | slot => cases hp
    | _ => rfl
  rw [hhas, h.plainValue? hkeys hp ht]
  by_cases hr : k = .required
  · subst hr
    rw [present, show Keyword.required.word = "required" from rfl]
    cases Entries.get? "required" ms with
    | none => rfl
    | some v => exact isSome_normal?_required v
  · have hpresent : present ms k = (Entries.get? k.word ms).any k.accepts := by
      cases k with
      | required => exact absurd rfl hr
      | _ => rfl
    rw [hpresent]
    cases Entries.get? k.word ms with
    | none => rfl
    | some v => exact isSome_normal? hp ht hr v

theorem isEmpty_eq_of_forall₂ {α β : Type} {R : α → β → Prop} {as : List α} {bs : List β}
    (h : List.Forall₂ R as bs) : as.isEmpty = bs.isEmpty := by
  cases h <;> rfl

theorem isEmpty_ofList_zip {keys : List String} {ids : List NodeId}
    (h : keys.length = ids.length) :
    (OrderedMap.ofList (keys.zip ids)).values.isEmpty = keys.isEmpty := by
  cases keys with
  | nil => rfl
  | cons key keys =>
    cases ids with
    | nil => cases h
    | cons id ids =>
      have hget : (OrderedMap.ofList ((key :: keys).zip (id :: ids))).get? key ≠ none := by
        rw [OrderedMap.get?_ofList, ne_eq, Entries.get?_eq_none_iff]
        simp
      obtain ⟨c, hc⟩ := Option.ne_none_iff_exists'.mp hget
      exact List.isEmpty_eq_false_iff.mpr (List.ne_nil_of_mem (OrderedMap.mem_values_of_get? hc))

/-- A node has what the members fill. -/
theorem ReadsObject.has_eq (h : ReadsObject S ms n) (hkeys : (ms.map Prod.fst).Nodup)
    {k : Keyword} (ht : k ≠ .type) (hd : k ≠ .slot (.map .defs)) : n.has k = filled ms k := by
  rcases k with k | k | k | k | (k | k | k) | _ | _ | _ | _ | _
  case slot.child =>
    have hchild := h.child hkeys k
    rw [Node.has, Node.slot, filled]
    revert hchild
    generalize (childSource ms k).filter (isSchema ·) = source, n.child k = child
    rintro ⟨⟩ <;> rfl
  case slot.list =>
    rw [Node.has, Node.slot, filled, isEmpty_eq_of_forall₂ (h.lastList hkeys k)]
  case slot.map =>
    obtain ⟨ids, hids, hmap⟩ := h.map hkeys k fun hk => absurd (hk ▸ rfl) hd
    have hlength := hids.length_eq
    rw [List.length_map] at hlength
    rw [Node.has, Node.slot, filled, hmap, isEmpty_ofList_zip ((List.length_map _).trans hlength),
      List.isEmpty_map]
  case type => exact absurd rfl ht
  all_goals exact h.has_plain hkeys rfl ht

end

/-! ## Empty lists and maps -/

/-- Members that are present and fill nothing. -/
def emptyContainers : List (String × Value) :=
  [("items", .array []), ("prefixItems", .array []), ("properties", .object []),
    ("patternProperties", .object []), ("dependentSchemas", .object [])]

section

variable {ms : List (String × Value)}

theorem listOf?_eq_prefixItems {key : String} {value : Value} :
    listOf? key value = some .prefixItems ↔
      (key = "items" ∨ key = "prefixItems") ∧ value.items?.isSome := by
  rw [listOf?_eq_some_iff]
  constructor
  · rintro ⟨vs, s, rfl, hs, htarget⟩
    refine ⟨?_, rfl⟩
    rcases s with k | k | k
    · cases k <;> first | exact .inl (Slot.word_of_ofWord? hs nofun).symm | cases htarget
    · cases htarget
      exact .inr (Slot.word_of_ofWord? hs nofun).symm
    · cases htarget
  · rintro ⟨hkey, hvalue⟩
    obtain ⟨vs, hvs⟩ := Option.isSome_iff_exists.mp hvalue
    obtain rfl := Value.items?_eq_some_iff.mp hvs
    rcases hkey with rfl | rfl
    · exact ⟨vs, .child .items, rfl, Slot.ofWord?_word (.child .items), rfl⟩
    · exact ⟨vs, .list .prefixItems, rfl, Slot.ofWord?_word (.list .prefixItems), rfl⟩

/-- Without empty lists, a list is filled if any member fills it. -/
theorem lastList_ne_nil_iff {k : ListKeyword}
    (hempty : ∀ m ∈ ms, listOf? m.1 m.2 = some k → m.2.items? ≠ some []) :
    lastList k ms ≠ [] ↔ ∃ m ∈ ms, listOf? m.1 m.2 = some k := by
  rw [lastList]
  cases hlast : (ms.filterMap (itemsFor? k)).getLast? with
  | none =>
    rw [List.getLast?_eq_none_iff, List.filterMap_eq_nil_iff] at hlast
    refine ⟨fun h => absurd rfl h, ?_⟩
    rintro ⟨m, hm, hk⟩
    obtain ⟨vs, _, hv, -⟩ := listOf?_eq_some_iff.mp hk
    have hnone := hlast m hm
    rw [itemsFor?, if_pos hk, hv] at hnone
    cases hnone
  | some vs =>
    obtain ⟨m, hm, hitems⟩ := List.mem_filterMap.mp (List.mem_of_getLast? hlast)
    rw [itemsFor?] at hitems
    split at hitems
    next hk =>
      refine ⟨fun _ => ⟨m, hm, hk⟩, fun _ hnil => hempty m hm hk ?_⟩
      rw [hitems]
      exact congrArg some hnil
    next => cases hitems

theorem filled_plain {k : Keyword} (h : k.isPlain) : filled ms k = present ms k := by
  cases k with
  | slot => cases h
  | _ => rfl

theorem present_slot (s : Slot) :
    present ms (.slot s) = (Entries.get? s.word ms).any (Keyword.slot s).accepts := rfl

theorem filled_child {k : ChildKeyword} (h : k ≠ .items) :
    filled ms (.slot (.child k)) = present ms (.slot (.child k)) := by
  have haccepts : (Keyword.slot (.child k)).accepts = isSchema := by
    funext value
    simp [Keyword.accepts, h]
  rw [filled, childSource, if_neg fun hi => h hi.1, Option.isSome_filter, present_slot, haccepts]
  rfl

theorem filled_map {k : MapKeyword} (h : (k.word, .object []) ∉ ms) :
    filled ms (.slot (.map k)) = present ms (.slot (.map k)) := by
  rw [filled, present_slot, show (Slot.map k).word = k.word from rfl]
  cases hget : Entries.get? k.word ms with
  | none => rfl
  | some v =>
    cases v with
    | object es =>
      cases es with
      | nil => exact absurd (Entries.mem_of_get? hget) h
      | cons => rfl
    | _ => rfl

/-- Either place of items is filled if either keyword is present: which one an array fills depends
on its version. -/
theorem filled_items (hkeys : (ms.map Prod.fst).Nodup) (hi : ("items", .array []) ∉ ms)
    (hp : ("prefixItems", .array []) ∉ ms) :
    (filled ms (.slot (.child .items)) || filled ms (.slot (.list .prefixItems))) =
      (present ms (.slot (.child .items)) || present ms (.slot (.list .prefixItems))) := by
  have hany {key} : (∃ v, (key, v) ∈ ms ∧ v.items?.isSome) ↔
      (Entries.get? key ms).any (·.items?.isSome) := by
    rw [Option.any_eq_true]
    exact exists_congr fun v => and_congr_left fun _ =>
      ⟨Entries.get?_of_mem hkeys, Entries.mem_of_get?⟩
  have hempty : ∀ m ∈ ms, listOf? m.1 m.2 = some .prefixItems → m.2.items? ≠ some [] := by
    rintro ⟨key, value⟩ hm hk hnil
    obtain rfl := Value.items?_eq_some_iff.mp hnil
    rcases (listOf?_eq_prefixItems.mp hk).1 with rfl | rfl
    · exact hi hm
    · exact hp hm
  have hlist : filled ms (.slot (.list .prefixItems)) ↔
      listsItems ms ∨ present ms (.slot (.list .prefixItems)) := by
    have hfilled : filled ms (.slot (.list .prefixItems)) ↔ lastList .prefixItems ms ≠ [] := by
      simp [filled]
    rw [hfilled, lastList_ne_nil_iff hempty, listsItems, Option.isSome_bind]
    rw [present_slot, show (Keyword.slot (.list .prefixItems)).accepts = (·.items?.isSome) from rfl,
      show (Slot.list .prefixItems).word = "prefixItems" from rfl, ← hany, ← hany]
    constructor
    · rintro ⟨⟨key, v⟩, hm, hk⟩
      obtain ⟨rfl | rfl, hv⟩ := listOf?_eq_prefixItems.mp hk
      · exact .inl ⟨v, hm, hv⟩
      · exact .inr ⟨v, hm, hv⟩
    · rintro (⟨v, hm, hv⟩ | ⟨v, hm, hv⟩)
      · exact ⟨_, hm, listOf?_eq_prefixItems.mpr ⟨.inl rfl, hv⟩⟩
      · exact ⟨_, hm, listOf?_eq_prefixItems.mpr ⟨.inr rfl, hv⟩⟩
  have hitems : present ms (.slot (.child .items)) ↔
      listsItems ms ∨ (Entries.get? "items" ms).any isSchema := by
    rw [present_slot, listsItems, Option.isSome_bind,
      show (Slot.child .items).word = "items" from rfl]
    cases Entries.get? "items" ms <;> simp [Keyword.accepts, or_comm]
  rw [Bool.eq_iff_iff, Bool.or_eq_true, Bool.or_eq_true, hlist, hitems]
  by_cases hl : listsItems ms
  · simp only [hl, true_or, or_true]
  · rw [filled, childSource, if_neg fun h => hl h.2, Option.isSome_filter]
    simp only [hl, Bool.false_eq_true, false_or]
    rfl

end

/-! ## Loaded objects -/

theorem any_eq_of_forall_mem {ks : List Keyword} {has has' : Keyword → Bool}
    (h : ∀ k ∈ ks, has k = has' k) : ks.any has = ks.any has' := by
  simpa only [List.any_map, Function.id_comp] using congrArg (List.any · id) (List.map_congr_left h)

theorem precedence_congr {has has' : Keyword → Bool}
    (harray : arrayKeywords.any has = arrayKeywords.any has')
    (hobject : objectKeywords.any has = objectKeywords.any has')
    (hnumber : numberKeywords.any has = numberKeywords.any has')
    (hstring : stringKeywords.any has = stringKeywords.any has') :
    precedence has = precedence has' := by
  funext constant enumeration
  simp only [precedence, harray, hobject, hnumber, hstring]

/-- Without empty lists and maps, the keywords that are present are those that fill a place. -/
theorem precedence_filled {ms : List (String × Value)} (hkeys : (ms.map Prod.fst).Nodup)
    (hempty : ∀ m ∈ emptyContainers, m ∉ ms) :
    precedence (filled ms) = precedence (present ms) := by
  have hplain : ∀ {ks : List Keyword}, (∀ k ∈ ks, k.isPlain) →
      ks.any (filled ms) = ks.any (present ms) :=
    fun h => any_eq_of_forall_mem fun k hk => filled_plain (h k hk)
  simp only [emptyContainers, List.forall_mem_cons] at hempty
  obtain ⟨hi, hp, hproperties, hpatternProperties, hdependentSchemas, -⟩ := hempty
  refine precedence_congr ?_ ?_ (hplain (by decide)) (hplain (by decide))
  · have hrest : ∀ k ∈ [Keyword.slot (.child .contains), .count .minItems, .count .maxItems,
        .uniqueItems], filled ms k = present ms k := by
      simp only [List.forall_mem_cons]
      exact ⟨filled_child nofun, rfl, rfl, rfl, nofun⟩
    simpa only [arrayKeywords, List.any_cons, Bool.or_assoc] using
      congrArg₂ or (filled_items hkeys hi hp) (any_eq_of_forall_mem hrest)
  · refine any_eq_of_forall_mem fun k hk => ?_
    rcases k with k | k | k | k | (k | k | k) | _ | _ | _ | _ | _
    case slot.child => exact filled_child (by rintro rfl; exact absurd hk (by decide))
    case slot.list => exact absurd hk (by cases k <;> decide)
    case slot.map =>
      refine filled_map ?_
      cases k <;> first | assumption | exact absurd hk (by decide)
    all_goals exact filled_plain rfl

section

variable {S : Value → NodeId → Prop} {ms : List (String × Value)} {n : Node}

theorem ReadsObject.constant (h : ReadsObject S ms n) (hkeys : (ms.map Prod.fst).Nodup) :
    n.constant = Entries.get? "const" ms := by
  have hplain := h.plainValue? hkeys (k := .constant) rfl (by simp)
  exact hplain.trans (Option.bind_fun_some _)

theorem ReadsObject.enumeration (h : ReadsObject S ms n) (hkeys : (ms.map Prod.fst).Nodup) :
    n.enumeration = (Entries.get? "enum" ms).bind Value.items? := by
  have hplain := h.plainValue? hkeys (k := .enumeration) rfl (by simp)
  have hnormal : ∀ v, Keyword.enumeration.normal? v = v.items?.map .array := by
    intro v
    cases v <;> rfl
  refine Option.map_injective (fun _ _ => Value.array.inj) ?_
  rw [Option.map_bind]
  refine hplain.trans (congrArg _ (funext hnormal))

/-- Members without `$ref` and `$dynamicRef` make up no reference. -/
theorem ReadsObject.meaning (h : ReadsObject S ms n) (hkeys : (ms.map Prod.fst).Nodup)
    (href : Entries.get? "$ref" ms = none) (hdynamicRef : Entries.get? "$dynamicRef" ms = none) :
    n.text .ref = none ∧ n.text .dynamicRef = none ∧ n.meaning = .inline := by
  have htext : ∀ {k : TextKeyword}, Entries.get? (Keyword.text k).word ms = none →
      n.text k = none := by
    intro k hk
    have hplain := h.plainValue? hkeys (k := .text k) rfl (by simp)
    rw [hk] at hplain
    exact Option.map_eq_none_iff.mp hplain
  have hr : n.text .ref = none := htext href
  have hd : n.text .dynamicRef = none := htext hdynamicRef
  refine ⟨hr, hd, ?_⟩
  rw [Node.meaning, h.boolean hkeys, hr, hd]

/-- Members without `type` and references have the types of their keywords. -/
theorem ReadsObject.types_eq_precedence_filled (h : ReadsObject S ms n)
    (hkeys : (ms.map Prod.fst).Nodup)
    (hnone : ∀ key ∈ ["type", "$ref", "$dynamicRef"], Entries.get? key ms = none) :
    n.types = precedence (filled ms) (Entries.get? "const" ms)
      ((Entries.get? "enum" ms).bind Value.items?) := by
  simp only [List.forall_mem_cons] at hnone
  obtain ⟨htype, href, hdynamicRef, -⟩ := hnone
  obtain ⟨hr, hd, hmeaning⟩ := h.meaning hkeys href hdynamicRef
  have hshown : (shownTypes ms).isEmpty := by
    rw [isEmpty_shownTypes, htype]
    rfl
  have htypes := congrArg Prod.fst (h.types hkeys)
  rw [hshown, hr, hd] at htypes
  have hhas : ∀ {ks : List Keyword}, (∀ k ∈ ks, k ≠ .type ∧ k ≠ .slot (.map .defs)) →
      ks.any n.has = ks.any (filled ms) :=
    fun hks => any_eq_of_forall_mem fun k hk => h.has_eq hkeys (hks k hk).1 (hks k hk).2
  have hprecedence : precedence n.has = precedence (filled ms) :=
    precedence_congr (hhas (by decide)) (hhas (by decide)) (hhas (by decide)) (hhas (by decide))
  rw [← hprecedence, ← h.constant hkeys, ← h.enumeration hkeys, ← Node.inferredTypes_eq hmeaning]
  exact htypes

end

namespace Graph

variable {g : Graph} {ms : List (String × Value)} {id : NodeId}

/-- The types of an object that was loaded without `type`, `$ref` and `$dynamicRef` follow the order
of precedence over the keywords that fill a place. These are the keywords that are present, but for
empty lists of items and empty maps of properties, pattern properties and dependent schemas. -/
theorem Stores.types_eq_precedence (h : g.Stores (.object ms) id)
    (hkeys : (Value.object ms).DistinctKeys)
    (hnone : ∀ key ∈ ["type", "$ref", "$dynamicRef"], Entries.get? key ms = none) :
    ∃ n, g.node? id = some n ∧
      n.types = precedence (filled ms) (Entries.get? "const" ms)
        ((Entries.get? "enum" ms).bind Value.items?) ∧
      ((∀ m ∈ emptyContainers, m ∉ ms) →
        n.types = precedence (present ms) (Entries.get? "const" ms)
          ((Entries.get? "enum" ms).bind Value.items?)) := by
  obtain ⟨n, hn, hr⟩ := h.object
  have htypes := hr.types_eq_precedence_filled hkeys.1 hnone
  exact ⟨n, hn, htypes, fun hempty => by rw [htypes, precedence_filled hkeys.1 hempty]⟩

/-- A schema whose keywords of higher precedence are of the wrong kind or empty. -/
def enumeratedMembers : List (String × Value) :=
  [("prefixItems", .string "p"), ("uniqueItems", .ofNat 1), ("required", .array []),
    ("minLength", .ofNat 2), ("enum", .array [.ofNat 1, .null, .ofNat 2])]

theorem types_enumeratedMembers : ∃ g id, ofValue (.object enumeratedMembers) = .ok g ∧
    g.Stores (.object enumeratedMembers) id ∧ (Value.object enumeratedMembers).DistinctKeys ∧
    (∀ key ∈ ["type", "$ref", "$dynamicRef"], Entries.get? key enumeratedMembers = none) ∧
    (∀ m ∈ emptyContainers, m ∉ enumeratedMembers) ∧
    ∃ n, g.node? id = some n ∧ n.types = .ofList ["integer", "null"] := by
  have hkeys : (Value.object enumeratedMembers).DistinctKeys := by
    simp [Value.DistinctKeys, Value.DistinctKeysMembers, Value.DistinctKeysList, enumeratedMembers,
      Value.ofNat]
  have hnone : ∀ key ∈ ["type", "$ref", "$dynamicRef"],
      Entries.get? key enumeratedMembers = none := by decide
  have hempty : ∀ m ∈ emptyContainers, m ∉ enumeratedMembers := by
    simp [emptyContainers, enumeratedMembers]
  have hprecedence : precedence (present enumeratedMembers)
      (Entries.get? "const" enumeratedMembers)
      ((Entries.get? "enum" enumeratedMembers).bind Value.items?) =
        .ofList ["integer", "null"] := by
    decide +kernel
  have hok : (ofValue (.object enumeratedMembers)).isOk := by decide +kernel
  obtain ⟨g, root, hg, -, hs⟩ := exists_stores_of_isOk hok
  obtain ⟨n, hn, -, htypes⟩ := hs.types_eq_precedence hkeys hnone
  exact ⟨g, root, hg, hs, hkeys, hnone, hempty, n, hn, (htypes hempty).trans hprecedence⟩

/-- The types do not follow the order of precedence over the keywords that are present: there are
none for an empty map of properties. -/
theorem not_types_eq_precedence_properties : ¬ ∀ (ms : List (String × Value)) (g : Graph)
    (root : NodeId) (n : Node), (Value.object ms).DistinctKeys →
    (∀ key ∈ ["type", "$ref", "$dynamicRef"], Entries.get? key ms = none) →
    ofValue (.object ms) = .ok g → g.root? = some root → g.node? root = some n →
    n.types = precedence (present ms) (Entries.get? "const" ms)
      ((Entries.get? "enum" ms).bind Value.items?) := by
  intro hall
  have hkeys : (Value.object [("properties", .object [])]).DistinctKeys := by
    simp [Value.DistinctKeys, Value.DistinctKeysMembers]
  have hnone : ∀ key ∈ ["type", "$ref", "$dynamicRef"],
      Entries.get? key [("properties", Value.object [])] = none := by decide
  have hok : (ofValue (.object [("properties", .object [])])).isOk := by decide +kernel
  obtain ⟨g, root, hg, hroot, hs⟩ := exists_stores_of_isOk hok
  obtain ⟨n, hn, hr⟩ := hs.object
  have hpresent := hall _ g root n hkeys hnone hg hroot hn
  rw [hr.types_eq_precedence_filled hkeys.1 hnone] at hpresent
  exact absurd hpresent (by decide +kernel)

end Graph

end OpenApi.Schema
