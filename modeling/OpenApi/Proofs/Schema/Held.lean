import OpenApi.Proofs.Schema.Reload

/-!
# What schemas hold

The subschemas of an object, older forms included, told from its members: by the member that holds
them (`holding`) and by the slot into which they are put (`Slot.held`).

* `ReadsObject.slot_held`, `ReadsObject.map_held`: a node has in every slot what its members hold
  there;
* `Regular.accepted`: a value without repeated keys that is loaded once is accepted;
* `accepted_object_iff`: an object is accepted exactly if all that it holds is.
-/

namespace OpenApi.Schema

open Json

/-! ## Arrangements -/

namespace Below

/-- The same arrangement with every thing in it changed. -/
def each (f : α → β) : Below α → Below β
  | .nothing => .nothing
  | .one item => .one (f item)
  | .list items => .list (items.map f)
  | .map entries => .map (entries.map fun e => (e.1, f e.2))

/-- The keys of a map; nothing else has keys. -/
def keys : Below α → List String
  | .map entries => entries.map Prod.fst
  | _ => []

@[simp] theorem items_each (f : α → β) (b : Below α) : (b.each f).items = b.items.map f := by
  cases b <;> simp [each, items]

@[simp] theorem keys_each (f : α → β) (b : Below α) : (b.each f).keys = b.keys := by
  cases b <;> simp [each, keys]

@[simp] theorem isNothing_each (f : α → β) (b : Below α) :
    (b.each f).isNothing = b.isNothing := by
  cases b <;> rfl

end Below

/-! ## Members and slots -/

section

variable (ms : List (String × Value))

/-- Whether definitions stand under their older word. -/
def hasDefinitions : Bool := ((Entries.get? "definitions" ms).bind Value.members?).isSome

/-- The subschemas that a member holds. `additionalItems` holds one beside listed items. -/
def holding (key : String) (value : Value) : Below Value :=
  if key = "additionalItems" ∧ listsItems ms ∧ isSchema value then .one value
  else subvalues key value

/-- The word under which that stands which belongs under a word, older words included. -/
def olderWord (word : String) : String :=
  if word = "$defs" ∧ hasDefinitions ms then "definitions"
  else if word = "prefixItems" ∧ listsItems ms then "items"
  else if word = "items" ∧ listsItems ms then "additionalItems"
  else word

/-- The subschemas that the members hold in a slot. -/
def Slot.held (s : Slot) : Below Value :=
  match Entries.get? (olderWord ms s.word) ms with
  | some value => holding ms (olderWord ms s.word) value
  | none => .nothing

/-- A subschema of the members. -/
def Holds (u : Value) : Prop := ∃ m ∈ ms, u ∈ (holding ms m.1 m.2).items

end

section

variable {ms : List (String × Value)}

theorem holding_of_ne {key : String} (h : key ≠ "additionalItems") (value : Value) :
    holding ms key value = subvalues key value := if_neg fun hc => h hc.1

theorem holding_additionalItems (value : Value) : holding ms "additionalItems" value =
    if listsItems ms && isSchema value then .one value else .nothing := by
  rw [holding, show subvalues "additionalItems" value = .nothing from rfl]
  simp only [true_and, Bool.and_eq_true]

theorem listsItems_iff : listsItems ms ↔ ∃ vs, Entries.get? "items" ms = some (.array vs) := by
  have harray (v : Value) : v.items?.isSome ↔ ∃ vs, v = .array vs := by
    cases v <;> simp [Value.items?]
  rw [listsItems]
  cases h : Entries.get? "items" ms with
  | none => simp
  | some v => simpa using harray v

theorem hasDefinitions_iff :
    hasDefinitions ms ↔ ∃ es, Entries.get? "definitions" ms = some (.object es) := by
  have hobject (v : Value) : v.members?.isSome ↔ ∃ es, v = .object es := by
    cases v <;> simp [Value.members?]
  rw [hasDefinitions]
  cases h : Entries.get? "definitions" ms with
  | none => simp
  | some v => simpa using hobject v

theorem olderWord_of_ne {word : String} (hd : word ≠ "$defs") (hp : word ≠ "prefixItems")
    (hi : word ≠ "items") : olderWord ms word = word := by
  rw [olderWord, if_neg fun h => hd h.1, if_neg fun h => hp h.1, if_neg fun h => hi h.1]

theorem olderWord_defs :
    olderWord ms "$defs" = if hasDefinitions ms then "definitions" else "$defs" := by
  simp [olderWord]

theorem olderWord_prefixItems :
    olderWord ms "prefixItems" = if listsItems ms then "items" else "prefixItems" := by
  simp [olderWord]

theorem olderWord_items :
    olderWord ms "items" = if listsItems ms then "additionalItems" else "items" := by
  simp [olderWord]

theorem Slot.olderWord_of_ne {s : Slot} (hd : s ≠ .map .defs) (hp : s ≠ .list .prefixItems)
    (hi : s ≠ .child .items) : olderWord ms s.word = s.word :=
  Schema.olderWord_of_ne (fun h => hd (Slot.word_injective h)) (fun h => hp (Slot.word_injective h))
    fun h => hi (Slot.word_injective h)

theorem subvalues_word (s : Slot) (value : Value) : subvalues s.word value = s.below value := by
  rw [subvalues, Slot.ofWord?_word]

/-- A slot under its own word. -/
theorem Slot.held_of_olderWord {s : Slot} (h : olderWord ms s.word = s.word) :
    s.held ms = ((Entries.get? s.word ms).map s.below).getD .nothing := by
  rw [held, h]
  cases Entries.get? s.word ms with
  | none => rfl
  | some v =>
    have hne : s.word ≠ "additionalItems" := (Keyword.slot s).word_ne_additionalItems
    simp only [holding_of_ne hne, subvalues_word, Option.map_some, Option.getD_some]

theorem Slot.held_child (k : ChildKeyword) : (Slot.child k).held ms =
    (((childSource ms k).filter (isSchema ·)).map .one).getD .nothing := by
  by_cases hk : k = .items ∧ listsItems ms
  · obtain ⟨rfl, hl⟩ := hk
    have hword : olderWord ms (Slot.child .items).word = "additionalItems" := by
      rw [show (Slot.child .items).word = "items" from rfl, olderWord_items, if_pos hl]
    rw [held, childSource, if_pos ⟨rfl, hl⟩, hword]
    cases Entries.get? "additionalItems" ms with
    | none => rfl
    | some v =>
      simp only [holding_additionalItems, hl, Bool.true_and, Option.filter_some]
      split <;> rfl
  · have hword : olderWord ms (Slot.child k).word = (Slot.child k).word := by
      by_cases hi : k = .items
      · subst hi
        rw [show (Slot.child .items).word = "items" from rfl, olderWord_items,
          if_neg fun hl => hk ⟨rfl, hl⟩]
      · exact Slot.olderWord_of_ne (by simp) (by simp) fun h => hi (Slot.child.inj h)
    rw [held_of_olderWord hword, childSource, if_neg hk]
    cases hget : Entries.get? k.word ms with
    | none => rw [show Entries.get? (Slot.child k).word ms = none from hget]; rfl
    | some v =>
      rw [show Entries.get? (Slot.child k).word ms = some v from hget, Option.map_some,
        Option.getD_some, Option.filter_some]
      rcases Slot.below_child k v with ⟨hv, hb⟩ | ⟨vs, rfl, rfl, hb⟩ | ⟨hv, -, hb⟩
      · rw [hb, hv]
        rfl
      · exact absurd ⟨rfl, listsItems_iff.mpr ⟨vs, hget⟩⟩ hk
      · rw [hb, hv]
        rfl

end

/-! ## Reading older forms -/

section

variable {S : Value → NodeId → Prop} {ms : List (String × Value)} {n : Node} {d : Draft}

/-- The list of prefix items may stand under `items`. -/
theorem Reads.prefixItems_of_items (h : Reads S {} ms d) (hkeys : (ms.map Prod.fst).Nodup)
    {vs : List Value} (hitems : Entries.get? "items" ms = some (.array vs))
    (hunlisted : Entries.get? "prefixItems" ms = none) :
    List.Forall₂ S vs (d.node.list .prefixItems) := by
  rcases h.part (φ := fun d => d.node.list .prefixItems) "items" hkeys (fun m hm hne d _ =>
    (d.step m.1 m.2 _).list_eq
      (fun hk => Entries.get?_eq_none_iff.mp hunlisted (List.mem_map.mpr ⟨m, hm, hk⟩))
      fun hi => absurd hi hne) with
    ⟨hget, -⟩ | ⟨value, d₁, ids, hget, -, hids, hd⟩
  · rw [hitems] at hget
    cases hget
  · rw [hitems] at hget
    cases hget
    have hs : Slot.ofWord? "items" = some (.child .items) := Slot.ofWord?_word (.child .items)
    simp only [subvalues, Draft.read, hs] at hids hd
    have hlist : (d₁.fill (.child .items) "items" (.array vs) (.list ids)).node.list .prefixItems =
        ids := update_self d₁.node.list .prefixItems ids
    rw [show d.node.list .prefixItems = ids from hd.trans hlist]
    exact hids

/-- Definitions may stand under `definitions`. -/
theorem Reads.defs_of_definitions (h : Reads S {} ms d) (hkeys : (ms.map Prod.fst).Nodup)
    {es : List (String × Value)} (hdefinitions : Entries.get? "definitions" ms = some (.object es))
    (hdefs : Entries.get? "$defs" ms = none) :
    ∃ ids, List.Forall₂ S (es.map Prod.snd) ids ∧
      d.node.map .defs = .ofList ((es.map Prod.fst).zip ids) := by
  rcases h.part (φ := fun d => d.node.map .defs) "definitions" hkeys (fun m hm hne d _ =>
    (d.step m.1 m.2 _).map_eq
      (fun hk => Entries.get?_eq_none_iff.mp hdefs (List.mem_map.mpr ⟨m, hm, hk⟩))
      fun hi => absurd hi hne) with
    ⟨hget, -⟩ | ⟨value, d₁, ids, hget, h₁, hids, hd⟩
  · rw [hdefinitions] at hget
    cases hget
  · rw [hdefinitions] at hget
    cases hget
    simp only [subvalues, Draft.read, Slot.ofWord?_definitions] at hids hd
    refine ⟨ids, hids, hd.trans ?_⟩
    have hmap : (d₁.fill (.map .defs) "definitions" (.object es)
        (.map ((es.map Prod.fst).zip ids))).node.map .defs =
        (d₁.node.map .defs).insertAll ((es.map Prod.fst).zip ids) :=
      update_self d₁.node.map .defs ((d₁.node.map .defs).insertAll ((es.map Prod.fst).zip ids))
    rw [show d₁.node.map .defs = .empty from h₁] at hmap
    exact hmap

namespace ReadsObject

theorem list_held (h : ReadsObject S ms n) (hkeys : (ms.map Prod.fst).Nodup)
    (hu : Unambiguous ms) (k : ListKeyword) :
    List.Forall₂ S ((Slot.list k).held ms).items (n.list k) := by
  by_cases hk : k = .prefixItems ∧ listsItems ms
  · obtain ⟨rfl, hl⟩ := hk
    obtain ⟨vs, hitems⟩ := listsItems_iff.mp hl
    have hheld : (Slot.list .prefixItems).held ms = .list vs := by
      rw [Slot.held, show (Slot.list .prefixItems).word = "prefixItems" from rfl,
        olderWord_prefixItems, if_pos hl, hitems]
      rfl
    obtain ⟨d, child, hd, rfl, -⟩ := h.exists_draft hkeys
    obtain ⟨_, _, _, he⟩ := Draft.finish_eq _ ms
    rw [he, hheld]
    refine hd.prefixItems_of_items hkeys hitems (hu.items.resolve_right ?_)
    simp [hl]
  · have hword : olderWord ms (Slot.list k).word = (Slot.list k).word := by
      by_cases hp : k = .prefixItems
      · subst hp
        rw [show (Slot.list .prefixItems).word = "prefixItems" from rfl, olderWord_prefixItems,
          if_neg fun hl => hk ⟨rfl, hl⟩]
      · exact Slot.olderWord_of_ne nofun (fun h => hp (Slot.list.inj h)) nofun
    have hitems : ((Slot.list k).held ms).items =
        ((Entries.get? k.word ms).bind Value.items?).getD [] := by
      rw [Slot.held_of_olderWord hword, show (Slot.list k).word = k.word from rfl]
      cases Entries.get? k.word ms with
      | none => rfl
      | some v => cases v <;> rfl
    rw [hitems]
    exact h.list hkeys k fun hp => Bool.eq_false_iff.mpr fun hl => hk ⟨hp, hl⟩

theorem exists_map_held (h : ReadsObject S ms n) (hkeys : (ms.map Prod.fst).Nodup)
    (hu : Unambiguous ms) (k : MapKeyword) :
    ∃ (es : List (String × Value)) (ids : List NodeId),
      ((Slot.map k).held ms).items = es.map Prod.snd ∧
      ((Slot.map k).held ms).keys = es.map Prod.fst ∧ List.Forall₂ S (es.map Prod.snd) ids ∧
      n.map k = .ofList ((es.map Prod.fst).zip ids) := by
  by_cases hk : k = .defs ∧ hasDefinitions ms
  · obtain ⟨rfl, hd⟩ := hk
    obtain ⟨es, hdefinitions⟩ := hasDefinitions_iff.mp hd
    have hheld : (Slot.map .defs).held ms = .map es := by
      rw [Slot.held, show (Slot.map .defs).word = "$defs" from rfl, olderWord_defs, if_pos hd,
        hdefinitions]
      rfl
    have hdefs : Entries.get? "$defs" ms = none := by
      refine hu.definitions.resolve_right ?_
      rw [hdefinitions]
      exact Option.some_ne_none _
    obtain ⟨d, child, hd, rfl, -⟩ := h.exists_draft hkeys
    obtain ⟨_, _, _, he⟩ := Draft.finish_eq _ ms
    obtain ⟨ids, hids, hm⟩ := hd.defs_of_definitions hkeys hdefinitions hdefs
    rw [he, hheld]
    exact ⟨es, ids, rfl, rfl, hids, hm⟩
  · have hword : olderWord ms (Slot.map k).word = (Slot.map k).word := by
      by_cases hp : k = .defs
      · subst hp
        rw [show (Slot.map .defs).word = "$defs" from rfl, olderWord_defs,
          if_neg fun hd => hk ⟨rfl, hd⟩]
      · exact Slot.olderWord_of_ne (fun h => hp (Slot.map.inj h)) nofun nofun
    obtain ⟨ids, hids, hm⟩ := h.map hkeys k fun hp => by
      have hd : hasDefinitions ms = false := Bool.eq_false_iff.mpr fun hd => hk ⟨hp, hd⟩
      rwa [hasDefinitions, Option.isSome_eq_false_iff, Option.isNone_iff_eq_none] at hd
    refine ⟨_, ids, ?_, ?_, hids, hm⟩ <;>
      rw [Slot.held_of_olderWord hword, show (Slot.map k).word = k.word from rfl] <;>
      cases Entries.get? k.word ms with
      | none => rfl
      | some v => cases v <;> rfl

/-- A map has the keys and, in order, the subschemas that its members hold. -/
theorem map_held (h : ReadsObject S ms n) (hkeys : (ms.map Prod.fst).Nodup) (hu : Unambiguous ms)
    {k : MapKeyword} (hheld : ((Slot.map k).held ms).keys.Nodup) :
    (n.map k).keys = ((Slot.map k).held ms).keys ∧
      List.Forall₂ S ((Slot.map k).held ms).items (n.map k).values := by
  obtain ⟨es, ids, hitems, hes, hids, hm⟩ := h.exists_map_held hkeys hu k
  have hlength : (es.map Prod.fst).length = ids.length := by
    rw [← hids.length_eq, List.length_map, List.length_map]
  rw [hes] at hheld ⊢
  obtain ⟨hk, hv⟩ := OrderedMap.keys_values_ofList_zip hheld hlength
  rw [hitems, hm, hk, hv]
  exact ⟨rfl, hids⟩

/-- A node has in every slot what its members hold there. -/
theorem slot_held (h : ReadsObject S ms n) (hkeys : (ms.map Prod.fst).Nodup)
    (hu : Unambiguous ms) (hheld : ∀ s : Slot, (s.held ms).keys.Nodup) (s : Slot) :
    List.Forall₂ S (s.held ms).items (n.slot s) := by
  cases s with
  | child k =>
    have hchild := h.child hkeys k
    rw [Slot.held_child, Node.slot]
    cases hs : (childSource ms k).filter (isSchema ·) with
    | none =>
      rw [hs] at hchild
      cases hn : n.child k with
      | none => exact .nil
      | some c =>
        rw [hn] at hchild
        cases hchild
    | some v =>
      rw [hs] at hchild
      cases hn : n.child k with
      | none =>
        rw [hn] at hchild
        cases hchild
      | some c =>
        rw [hn] at hchild
        cases hchild with
        | some hc => exact .cons hc .nil
  | list k => exact h.list_held hkeys hu k
  | map k => exact (h.map_held hkeys hu (hheld (.map k))).2

end ReadsObject

end

/-! ## Members that hold a subschema -/

section

variable {ms : List (String × Value)} {u : Value}

theorem mem_holding {key : String} {value : Value} (h : u ∈ (subvalues key value).items) :
    u ∈ (holding ms key value).items := by
  rwa [holding_of_ne]
  rintro rfl
  cases h

theorem holds_of_mem_subvalues {m : String × Value} (hm : m ∈ ms)
    (hu : u ∈ (subvalues m.1 m.2).items) : Holds ms u :=
  ⟨m, hm, mem_holding hu⟩

theorem holds_additionalItems (hl : listsItems ms) (hm : ("additionalItems", u) ∈ ms)
    (hu : isSchema u) : Holds ms u := by
  refine ⟨_, hm, ?_⟩
  rw [holding, if_pos ⟨rfl, hl, hu⟩]
  exact List.mem_singleton_self u

/-- The two ways in which members hold a subschema. -/
theorem Holds.cases (h : Holds ms u) : (∃ m ∈ ms, u ∈ (subvalues m.1 m.2).items) ∨
    listsItems ms ∧ ("additionalItems", u) ∈ ms ∧ isSchema u := by
  obtain ⟨⟨key, value⟩, hm, hu⟩ := h
  rw [holding] at hu
  split at hu
  next hc =>
    obtain ⟨rfl, hl, hv⟩ := hc
    rw [Below.items, List.mem_singleton] at hu
    subst hu
    exact .inr ⟨hl, hm, hv⟩
  next => exact .inl ⟨_, hm, hu⟩

theorem Holds.schemaAt (h : Holds ms u) : SchemaAt (.object ms) u := by
  rcases h.cases with ⟨m, hm, hu⟩ | ⟨hl, hm, hu⟩
  · exact .member .self hm hu
  · exact .furtherItems .self hl hm hu

theorem Holds.sizeOf_lt (h : Holds ms u) : sizeOf u < sizeOf (Value.object ms) := by
  rcases h.cases with ⟨m, hm, hu⟩ | ⟨-, hm, -⟩
  · exact Nat.lt_of_le_of_lt (sizeOf_le_of_mem_subvalues hu) (sizeOf_lt_object hm)
  · exact sizeOf_lt_object hm

theorem ReadsObject.imp_holds {S S' : Value → NodeId → Prop} {n : Node} (h : ReadsObject S ms n)
    (hkeys : (ms.map Prod.fst).Nodup) (hS : ∀ u, Holds ms u → ∀ c, S u c → S' u c) :
    ReadsObject S' ms n := by
  obtain @⟨d, ids, hd, ha⟩ := h
  refine .mk (hd.imp fun m hm u hu => hS u (holds_of_mem_subvalues hm hu)) ?_
  rw [List.forall₂_iff_zip] at ha ⊢
  refine ⟨ha.1, fun hz => hS _ ?_ _ (ha.2 hz)⟩
  obtain ⟨hm, hlist, -, hu⟩ := Draft.mem_additionalItems (List.of_mem_zip hz).1
  exact holds_additionalItems ((hd.itemsWereList hkeys).symm.trans hlist) hm hu

end

/-! ## Loading what is held -/

section

variable {R : Graph → Value → NodeId → Graph → Prop} {g g' : Graph} {u v : Value} {id : NodeId}
  {ms : List (String × Value)}

theorem LoadsAll.exists_of_mem {vs : List Value} {ids : List NodeId} (h : LoadsAll R g vs ids g')
    (hu : u ∈ vs) : ∃ g₁ c g₂, R g₁ u c g₂ := by
  induction h with
  | nil => cases hu
  | cons hc _ ih =>
    rcases List.mem_cons.mp hu with rfl | hu
    · exact ⟨_, _, _, hc⟩
    · exact ih hu

theorem LoadsMembers.exists_of_mem {d d' : Draft} (h : LoadsMembers R g d ms d' g')
    {m : String × Value} (hm : m ∈ ms) (hu : u ∈ (subvalues m.1 m.2).items) :
    ∃ g₁ c g₂, R g₁ u c g₂ := by
  induction h with
  | nil => cases hm
  | cons hids _ ih =>
    rcases List.mem_cons.mp hm with rfl | hm
    · exact hids.exists_of_mem hu
    · exact ih hm

/-- Loading an object loads all that it holds. -/
theorem LoadsObject.exists_of_holds (h : LoadsObject R g ms id g')
    (hkeys : (ms.map Prod.fst).Nodup) (hu : Holds ms u) : ∃ g₁ c g₂, R g₁ u c g₂ := by
  obtain @⟨g₁, g₂, d, ids, hd, ha⟩ := h
  rcases hu.cases with ⟨m, hm, hu⟩ | ⟨hl, hm, hu⟩
  · exact hd.exists_of_mem hm hu
  · refine ha.exists_of_mem ?_
    rw [Draft.additionalItems, Entries.get?_of_mem hkeys hm]
    simp only [hd.reads_of_any.additional hkeys, hl, hu, Bool.and_self, if_true]
    exact List.mem_singleton_self u

/-- A value in which every schema has distinct keys and no form beside its older form, and no map of
schemas has a key twice. -/
inductive Regular : Value → Prop
  | other {v : Value} : v.members? = none → Regular v
  | object {ms : List (String × Value)} : (ms.map Prod.fst).Nodup → Unambiguous ms →
    (∀ s : Slot, (s.held ms).keys.Nodup) → (∀ u, Holds ms u → Regular u) → Regular (.object ms)

theorem nodup_keys_below {s : Slot} (h : v.DistinctKeys) : (s.below v).keys.Nodup := by
  rcases s with k | k | k
  · rcases Slot.below_child k v with ⟨-, hb⟩ | ⟨_, -, -, hb⟩ | ⟨-, -, hb⟩ <;> rw [hb] <;> exact .nil
  · cases v <;> exact .nil
  · cases v with
    | object es => exact h.1
    | _ => exact .nil

theorem nodup_keys_held (h : (Value.object ms).DistinctKeys) (s : Slot) :
    (s.held ms).keys.Nodup := by
  rw [Slot.held]
  split
  next v hget =>
    rw [holding]
    split
    · exact .nil
    · rw [subvalues]
      split
      · exact nodup_keys_below (distinctKeys_of_mem_members h.2 (Entries.mem_of_get? hget))
      · exact .nil
  next => exact .nil

theorem regular_of_distinctKeys (hkeys : v.DistinctKeys)
    (hc : ∀ ms, SchemaAt v (.object ms) → Unambiguous ms) : Regular v := by
  induction hn : sizeOf v using Nat.strongRecOn generalizing v with
  | ind n ih =>
    subst hn
    cases v with
    | object ms =>
      refine .object hkeys.1 (hc ms .self) (nodup_keys_held hkeys) fun u hu => ?_
      exact ih _ hu.sizeOf_lt (hu.schemaAt.distinctKeys hkeys)
        (fun ms' hms' => hc ms' (hu.schemaAt.trans hms')) rfl
    | _ => exact .other rfl

theorem accepted_of_holds (hkeys : (ms.map Prod.fst).Nodup) (h : ∀ u, Holds ms u → Accepted u) :
    Accepted (.object ms) := by
  refine accepted_object (fun m hm u hu => h u (holds_of_mem_subvalues hm hu)) ?_
  intro g d g' hd u hu
  obtain ⟨hm, hlist, -, hs⟩ := Draft.mem_additionalItems hu
  exact h u (holds_additionalItems ((hd.reads_of_any.itemsWereList hkeys).symm.trans hlist) hm hs)

/-- A value that is loaded somewhere is loaded everywhere. -/
theorem Regular.accepted (h : Regular v) (hl : Loads g v id g') : Accepted v := by
  induction h generalizing g id g' with
  | @other v hv =>
    cases v with
    | bool b => exact accepted_bool b
    | object => cases hv
    | _ => simpa [Schema.isSchema] using hl.isSchema
  | object hkeys _ _ _ ih =>
    refine accepted_of_holds hkeys fun u hu => ?_
    obtain ⟨_, _, _, hl⟩ := hl.object.exists_of_holds hkeys hu
    exact ih u hu hl

theorem accepted_object_iff (h : Regular (.object ms)) :
    Accepted (.object ms) ↔ ∀ u, Holds ms u → Accepted u := by
  cases h with
  | other hv => cases hv
  | object hkeys _ _ hsub =>
    refine ⟨fun ha u hu => ?_, accepted_of_holds hkeys⟩
    obtain ⟨id, g', hl⟩ := ha "#" {}
    have hl : Loads {} (.object ms) id g' := ⟨"#", hl⟩
    obtain ⟨_, _, _, hl⟩ := hl.object.exists_of_holds hkeys hu
    exact (hsub u hu).accepted hl

end

end OpenApi.Schema
