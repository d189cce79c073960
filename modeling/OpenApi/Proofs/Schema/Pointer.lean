import OpenApi.Proofs.Pointer
import OpenApi.Proofs.Schema.Lineage
import OpenApi.Proofs.Schema.Location
import OpenApi.Proofs.Schema.Reload

/-!
# Pointers to subschemas

A pointer is followed through the slots of nodes, which have one spelling for what may be written in
two. A subschema can be pointed to where it does not take the place of another (`Distinguishable`).

* `Draft.at?_fill_self`, `Draft.at?_fill_of_ne`: a member puts its subschemas into its slot, and
  leaves those of other slots alone;
* `Graph.StoresAt.walkPointer`: a pointer whose words name the slots leads to the node of a
  location;
* `Graph.StoresAt.walkPointer_eq_none`: as they are written, pointers through a list of `items` and
  through `additionalItems` lead nowhere;
* `Graph.resolve_slotPointer`: both from the root of a loaded schema.
-/

namespace OpenApi.Schema

open Json

/-! ## Subschemas of a node -/

/-- The subschema of a node in a slot, at the token beside the word of the slot. -/
def Node.at? (n : Node) : Slot → Option String → Option NodeId
  | .child k, none => n.child k
  | .list k, some token => (Graph.position? token).bind fun i => (n.list k)[i]?
  | .map k, some name => (n.map k).get? name
  | _, _ => none

/-- A pointer goes on at the subschema that its first tokens name. -/
theorem Graph.walkPointer_cons {g : Graph} {id c : NodeId} {n : Node} {word : String} {s : Slot}
    {token : Option String} (hn : g.node? id = some n) (hs : Slot.ofWord? word = some s)
    (hc : n.at? s token = some c) (rest : List String) :
    g.walkPointer id (word :: (token.toList ++ rest)) = g.walkPointer c rest := by
  rw [walkPointer.eq_def]
  cases s <;> cases token <;> simp_all [Node.at?]

namespace Node

variable {n n' : Node} {t : Slot} {token : Option String}

theorem at?_congr (hchild : n'.child = n.child) (hlist : n'.list = n.list) (hmap : n'.map = n.map)
    (t : Slot) (token : Option String) : n'.at? t token = n.at? t token := by
  cases t <;> cases token <;> simp only [at?, hchild, hlist, hmap]

theorem at?_update_child_of_ne {k : ChildKeyword} (h : t ≠ .child k) (id : Option NodeId) :
    { n with child := update n.child k id }.at? t token = n.at? t token := by
  cases t <;> cases token <;> simp only [at?]
  exact update_of_ne _ _ fun hk => h (by rw [hk])

theorem at?_update_list_of_ne {k : ListKeyword} (h : t ≠ .list k) (ids : List NodeId) :
    { n with list := update n.list k ids }.at? t token = n.at? t token := by
  cases t <;> cases token <;> simp only [at?]
  rw [update_of_ne _ _ fun hk => h (by rw [hk])]

theorem at?_update_map_of_ne {k : MapKeyword} (h : t ≠ .map k) (m : OrderedMap NodeId) :
    { n with map := update n.map k m }.at? t token = n.at? t token := by
  cases t <;> cases token <;> simp only [at?]
  rw [update_of_ne _ _ fun hk => h (by rw [hk])]

end Node

/-! ## Reading members -/

namespace Draft

variable {d : Draft} {s t : Slot} {key : String} {value : Value} {token : Option String}
  {ids : List NodeId}

theorem at?_readOther (d : Draft) (key : String) (value : Value) (t : Slot)
    (token : Option String) : (d.readOther key value).node.at? t token = d.node.at? t token := by
  rw [readOther]
  split
  · exact Node.at?_congr rfl rfl rfl t token
  split
  · exact Node.at?_congr rfl rfl rfl t token
  split
  · cases value <;> exact Node.at?_congr rfl rfl rfl t token
  split
  · rfl
  split
  · rw [readPlain]
    split
    next hn =>
      obtain ⟨-, hchild, hlist, hmap, -⟩ := Node.others_withPlain? hn
      exact Node.at?_congr hchild hlist hmap t token
    next => exact Node.at?_congr rfl rfl rfl t token
  · exact Node.at?_congr rfl rfl rfl t token

theorem at?_keep (d : Draft) (key : String) (value : Value) (t : Slot) (token : Option String) :
    (d.keep key value).node.at? t token = d.node.at? t token :=
  Node.at?_congr rfl rfl rfl t token

/-- Subschemas that go to another slot, or nowhere, leave a subschema where it is. -/
theorem at?_fill_of_ne (h : (s.below value).isNothing ∨ s.target value ≠ t) (key : String)
    (ids : List NodeId) (token : Option String) :
    (d.fill s key value ((s.below value).refill ids)).node.at? t token = d.node.at? t token := by
  by_cases hb : s.below value = .nothing
  · rw [hb, Below.refill_nothing, fill_nothing, at?_keep]
  have hne : s.target value ≠ t := h.resolve_left fun hn => by
    cases hv : s.below value <;> simp_all [Below.isNothing]
  cases s with
  | child k =>
    rcases Slot.below_child k value with ⟨hv, hone⟩ | ⟨items, rfl, rfl, hlist⟩ | ⟨-, -, hn⟩
    · rw [Slot.target_of_isSchema _ hv] at hne
      rw [hone]
      rcases ids with - | ⟨id, - | _⟩
      · exact (congrArg (·.node.at? t token) (d.fill_nothing (.child k) key value)).trans
          (d.at?_keep key value t token)
      · rw [Below.refill, fill_one]
        exact Node.at?_update_child_of_ne (Ne.symm hne) _
      · exact (congrArg (·.node.at? t token) (d.fill_nothing (.child k) key value)).trans
          (d.at?_keep key value t token)
    · exact Node.at?_update_list_of_ne (Ne.symm hne) ids
    · exact absurd hn hb
  | list k =>
    cases value with
    | array items => exact Node.at?_update_list_of_ne (Ne.symm hne) ids
    | _ => exact absurd rfl hb
  | map k =>
    cases value with
    | object entries => exact Node.at?_update_map_of_ne (Ne.symm hne) _
    | _ => exact absurd rfl hb

theorem map_fill (d : Draft) (k : MapKeyword) (key : String) (value : Value)
    (entries : List (String × NodeId)) :
    (d.fill (.map k) key value (.map entries)).node.map k =
      (if k = .defs then d.node.map k else .empty).insertAll entries :=
  update_self ..

/-- Definitions under other names leave a definition where it is. -/
theorem at?_fill_defs {name : String}
    (h : ∀ entries, value = .object entries → name ∉ entries.map Prod.fst) (key : String)
    (ids : List NodeId) :
    (d.fill (.map .defs) key value (((Slot.map .defs).below value).refill ids)).node.at?
      (.map .defs) (some name) = d.node.at? (.map .defs) (some name) := by
  cases value with
  | object entries =>
    have hname : name ∉ ((entries.map Prod.fst).zip ids).map Prod.fst := by
      intro hmem
      obtain ⟨e, he, rfl⟩ := List.mem_map.mp hmem
      exact h entries rfl (List.of_mem_zip he).1
    have hdefs := d.map_fill .defs key (.object entries) ((entries.map Prod.fst).zip ids)
    show OrderedMap.get? (Node.map _ _) name = _
    rw [Slot.below, Below.refill, hdefs, if_pos rfl]
    exact OrderedMap.get?_insertAll_of_notMem hname
  | _ => exact at?_keep ..

section

variable {i : Nat} {u : Value} {c : NodeId} (hc : ids[i]? = some c)
include hc

theorem at?_of_list_eq {k : ListKeyword} {items : List Value} {n : Node}
    (hsize : items.length ≤ 2 ^ 64) (hu : (Below.list items).located[i]? = some (token, u))
    (hn : n.list k = ids) : n.at? (.list k) token = some c := by
  simp only [Below.located, List.getElem?_mapIdx, Option.map_eq_some_iff, Prod.mk.injEq] at hu
  obtain ⟨item, hitem, rfl, -⟩ := hu
  have hlt : i < items.length := (List.getElem?_eq_some_iff.mp hitem).1
  rw [Node.at?, indexToken, position?_digits (Nat.lt_of_lt_of_le hlt hsize), Option.bind_some, hn,
    hc]

theorem at?_fill_map_self (d : Draft) (k : MapKeyword) (key : String)
    {entries : List (String × Value)} (hkeys : (entries.map Prod.fst).Nodup)
    (hlength : ids.length = entries.length)
    (hu : (Below.map entries).located[i]? = some (token, u)) :
    (d.fill (.map k) key (.object entries) (.map ((entries.map Prod.fst).zip ids))).node.at?
      (.map k) token = some c := by
  simp only [Below.located, List.getElem?_map, Option.map_eq_some_iff, Prod.mk.injEq] at hu
  obtain ⟨⟨name, u⟩, hentry, rfl, -⟩ := hu
  have hnames : (((entries.map Prod.fst).zip ids).map Prod.fst).Nodup := by
    rw [List.map_fst_zip]
    · exact hkeys
    · simpa using hlength.ge
  have hmem : (name, c) ∈ (entries.map Prod.fst).zip ids := by
    refine List.mem_of_getElem? (i := i) ?_
    rw [List.getElem?_zip_eq_some, List.getElem?_map, hentry]
    exact ⟨rfl, hc⟩
  show OrderedMap.get? (Node.map _ _) name = _
  rw [d.map_fill k key (.object entries), OrderedMap.get?_insertAll, Entries.get?_reverse _ hnames,
    Entries.get?_of_mem hnames hmem, Option.some_or]

/-- A subschema is found under its token in the slot that takes it. -/
theorem at?_fill_self (d : Draft) (key : String)
    (hkeys : ∀ entries, value = .object entries → (entries.map Prod.fst).Nodup)
    (hsize : ∀ items, value = .array items → items.length ≤ 2 ^ 64)
    (hu : (s.below value).located[i]? = some (token, u))
    (hlength : ids.length = (s.below value).items.length) :
    (d.fill s key value ((s.below value).refill ids)).node.at? (s.target value) token =
      some c := by
  cases s with
  | child k =>
    rcases Slot.below_child k value with ⟨hv, hone⟩ | ⟨items, rfl, rfl, -⟩ | ⟨-, -, hn⟩
    · rw [hone] at hu hlength ⊢
      rw [Slot.target_of_isSchema _ hv]
      obtain ⟨id, rfl⟩ := List.length_eq_one_iff.mp hlength
      obtain ⟨rfl, rfl⟩ : i = 0 ∧ id = c := by
        cases i with
        | zero => exact ⟨rfl, Option.some.inj hc⟩
        | succ => cases hc
      cases hu
      rw [Below.refill, fill_one]
      exact update_self ..
    · exact at?_of_list_eq hc (hsize items rfl) hu (update_self d.node.list .prefixItems ids)
    · rw [hn] at hu
      cases hu
  | list k =>
    cases value with
    | array items => exact at?_of_list_eq hc (hsize items rfl) hu (update_self d.node.list k ids)
    | _ => cases hu
  | map k =>
    cases value with
    | object entries =>
      have hentries : ids.length = entries.length := by
        simpa [Slot.below, Below.items] using hlength
      exact at?_fill_map_self hc d k key (hkeys entries rfl) hentries hu
    | _ => cases hu

end

theorem at?_finish (d : Draft) (members : List (String × Value)) (t : Slot)
    (token : Option String) : (d.finish members).at? t token = d.node.at? t token := by
  simp only [finish, finishNullable, Node.withInferredTypes]
  split <;> split <;> try split
  all_goals exact Node.at?_congr rfl rfl rfl t token

/-- Further items take the place of no other schema. -/
theorem at?_readAdditional {c : NodeId} (h : d.node.at? t token = some c)
    (members : List (String × Value)) (ids : List NodeId) :
    (d.readAdditional members ids).node.at? t token = some c := by
  rw [readAdditional]
  split
  next value _ =>
    rw [additional]
    split
    next hfree =>
      rcases ids with - | ⟨id, - | _⟩
      · exact (at?_keep ..).trans h
      · rw [Below.refill, fill_one]
        refine (Node.at?_update_child_of_ne (fun ht => ?_) _).trans h
        subst ht
        cases token with
        | none =>
          simp only [Bool.and_eq_true, Option.isNone_iff_eq_none] at hfree
          cases hfree.1.2.symm.trans h
        | some => cases h
      · exact (at?_keep ..).trans h
    next => exact (at?_keep ..).trans h
  next => exact h

theorem at?_readAdditional_self {members : List (String × Value)} {u : Value} (c : NodeId)
    (h : d.additionalItems members = [u]) :
    (d.readAdditional members [c]).node.at? (.child .items) none = some c := by
  rw [additionalItems] at h
  rw [readAdditional]
  split at h
  next value hvalue =>
    rw [additional] at h ⊢
    split at h
    next hfree =>
      simp only [if_pos hfree, Below.refill, fill_one]
      exact update_self d.node.child .items (some c)
    next => cases h
  next => cases h

end Draft

/-! ## Members that can be told apart -/

/-- The names that an object under a key gives. -/
def namesUnder (key : String) (ms : List (String × Value)) : List String :=
  (((Entries.get? key ms).bind Value.members?).getD []).map Prod.fst

/-- No subschema takes the place of another: definitions in both spellings have different names, and
items are listed in one spelling. Positions in lists are numbers of 64 bits. -/
structure Distinguishable (ms : List (String × Value)) : Prop where
  definitions : ∀ name ∈ namesUnder "$defs" ms, name ∉ namesUnder "definitions" ms
  items : listsItems ms → (Entries.get? "prefixItems" ms).bind Value.items? = none
  positions : ∀ m ∈ ms, ∀ items, m.2 = .array items → items.length ≤ 2 ^ 64

theorem Slot.target_eq (s : Slot) (value : Value) : s.target value = s ∨
    s = .child .items ∧ (∃ items, value = .array items) ∧ s.target value = .list .prefixItems := by
  rcases s with k | k | k
  · cases value with
    | array items => cases k <;> first | exact .inr ⟨rfl, ⟨items, rfl⟩, rfl⟩ | exact .inl rfl
    | _ => cases k <;> exact .inl rfl
  · exact .inl rfl
  · exact .inl rfl

/-- Two keywords whose subschemas go to one slot: the spellings of definitions, or `prefixItems` and
a list of `items`. -/
theorem Slot.eq_of_target_eq {s s' : Slot} {key key' : String} {value value' : Value}
    (hs : ofWord? key = some s) (hs' : ofWord? key' = some s') (hne : key ≠ key')
    (h : s.target value = s'.target value') :
    s = .map .defs ∧ s' = .map .defs ∨
      key = "items" ∧ (∃ items, value = .array items) ∧ s' = .list .prefixItems ∨
      key' = "items" ∧ (∃ items, value' = .array items) ∧ s = .list .prefixItems := by
  have hitems : ∀ {key}, ofWord? key = some (.child .items) → key = "items" := fun h =>
    (word_of_ofWord? h (by simp)).symm
  rcases s.target_eq value with ht | ⟨rfl, harray, ht⟩ <;>
    rcases s'.target_eq value' with ht' | ⟨rfl, harray', ht'⟩ <;> rw [ht, ht'] at h
  · subst h
    by_cases hd : s = .map .defs
    · exact .inl ⟨hd, hd⟩
    · exact absurd ((word_of_ofWord? hs hd).symm.trans (word_of_ofWord? hs' hd)) hne
  · exact .inr (.inr ⟨hitems hs', harray', h⟩)
  · exact .inr (.inl ⟨hitems hs, harray, h.symm⟩)
  · exact absurd ((hitems hs).trans (hitems hs').symm) hne

theorem Distinguishable.notMem_names {ms : List (String × Value)} (h : Distinguishable ms)
    (hkeys : (ms.map Prod.fst).Nodup) {key key' name : String}
    {entries entries' : List (String × Value)} (hs : Slot.ofWord? key = some (.map .defs))
    (hs' : Slot.ofWord? key' = some (.map .defs)) (hne : key ≠ key')
    (hm : (key, .object entries) ∈ ms) (hm' : (key', .object entries') ∈ ms)
    (hname : name ∈ entries.map Prod.fst) : name ∉ entries'.map Prod.fst := by
  have hunder : ∀ {key entries}, (key, .object entries) ∈ ms →
      namesUnder key ms = entries.map Prod.fst := by
    intro key entries hm
    rw [namesUnder, Entries.get?_of_mem hkeys hm]
    rfl
  rcases Slot.ofWord?_eq_some_iff.mp hs with rfl | ⟨rfl, -⟩ <;>
    rcases Slot.ofWord?_eq_some_iff.mp hs' with rfl | ⟨rfl, -⟩
  · exact absurd rfl hne
  · exact hunder hm' ▸ h.definitions name (hunder hm ▸ hname)
  · exact fun hname' => h.definitions name (hunder hm' ▸ hname') (hunder hm ▸ hname)
  · exact absurd rfl hne

theorem Distinguishable.not_both {ms : List (String × Value)} (h : Distinguishable ms)
    (hkeys : (ms.map Prod.fst).Nodup) {items prefixItems : List Value}
    (hm : ("items", .array items) ∈ ms) (hm' : ("prefixItems", .array prefixItems) ∈ ms) :
    False := by
  have hlists : listsItems ms = true := by
    rw [listsItems, Entries.get?_of_mem hkeys hm]
    rfl
  have hnone := h.items hlists
  rw [Entries.get?_of_mem hkeys hm'] at hnone
  cases hnone

theorem Slot.exists_array_of_below_list {k : ListKeyword} {value : Value}
    (h : (list k).below value ≠ .nothing) : ∃ items, value = .array items := by
  cases value with
  | array items => exact ⟨items, rfl⟩
  | _ => exact absurd rfl h

/-- A member leaves the subschemas of another where they are. -/
theorem Distinguishable.at?_read {ms : List (String × Value)} (h : Distinguishable ms)
    (hkeys : (ms.map Prod.fst).Nodup) {key key' : String} {value value' u : Value} {s : Slot}
    {i : Nat} {token : Option String} (hm : (key, value) ∈ ms) (hs : Slot.ofWord? key = some s)
    (hu : (s.below value).located[i]? = some (token, u)) (hm' : (key', value') ∈ ms)
    (hne : key' ≠ key) (d : Draft) (ids : List NodeId) :
    (d.read key' value' ((subvalues key' value').refill ids)).node.at? (s.target value) token =
      d.node.at? (s.target value) token := by
  rw [Draft.read, subvalues]
  cases hs' : Slot.ofWord? key' with
  | none => exact d.at?_readOther key' value' _ token
  | some s' =>
    by_cases hfree : (s'.below value').isNothing ∨ s'.target value' ≠ s.target value
    · exact Draft.at?_fill_of_ne hfree key' ids token
    rw [not_or, not_not] at hfree
    have hsome : s.below value ≠ .nothing := fun hn => by rw [hn] at hu; cases hu
    have hsome' : s'.below value' ≠ .nothing := fun hn => hfree.1 (by rw [hn]; rfl)
    rcases Slot.eq_of_target_eq hs' hs hne hfree.2 with
      ⟨rfl, rfl⟩ | ⟨rfl, ⟨items, rfl⟩, rfl⟩ | ⟨rfl, ⟨items, rfl⟩, rfl⟩
    · cases value with
      | object entries =>
        simp only [Slot.below, Below.located, List.getElem?_map, Option.map_eq_some_iff,
          Prod.mk.injEq] at hu
        obtain ⟨⟨name, u⟩, hentry, rfl, -⟩ := hu
        have hname : name ∈ entries.map Prod.fst :=
          List.mem_map_of_mem (List.mem_of_getElem? hentry)
        refine Draft.at?_fill_defs (fun entries' hv => ?_) key' ids
        exact h.notMem_names hkeys hs hs' hne.symm hm (hv ▸ hm') hname
      | _ => exact absurd rfl hsome
    · obtain ⟨prefixItems, rfl⟩ := Slot.exists_array_of_below_list hsome
      obtain rfl : "prefixItems" = key := Slot.word_of_ofWord? hs (by simp)
      exact (h.not_both hkeys hm' hm).elim
    · obtain ⟨prefixItems, rfl⟩ := Slot.exists_array_of_below_list hsome'
      obtain rfl : "prefixItems" = key' := Slot.word_of_ofWord? hs' (by simp)
      exact (h.not_both hkeys hm hm').elim

/-- The keyword of a step names the slot that takes the subschema. -/
def Descent.NamesSlot (step : Descent) : Prop := Slot.ofWord? step.key = some step.slot

instance : DecidablePred Descent.NamesSlot := fun _ => inferInstanceAs (Decidable (_ = _))

/-! ## Following pointers -/

namespace Graph

variable {G : Graph} {root id : NodeId} {location : List Descent} {members : List (String × Value)}

/-- The node of an object has the subschema of a step where the step says. -/
theorem Descends.at? {step : Descent} (h : G.Descends members root location id step)
    (hkeys : (Value.object members).DistinctKeys) (hc : Distinguishable members) :
    ∃ u c n, G.StoresAt u c location id ∧ SchemaAt (.object members) u ∧
      G.node? root = some n ∧ n.at? step.slot step.token = some c := by
  cases h with
  | @member before after key value u s d d' i token ids others c hmembers hs hu hlength hget hafter
      hnode hat =>
    subst hmembers
    have hm : (key, value) ∈ before ++ (key, value) :: after := by simp
    have hvalue : value.DistinctKeys := distinctKeys_of_mem_members hkeys.2 hm
    have hself := Draft.at?_fill_self hget d key (fun _ hv => by subst hv; exact hvalue.1)
      (hc.positions _ hm) hu hlength
    rw [Draft.read, hs] at hafter
    have hframe : ∀ m ∈ after, ∀ (d : Draft) (ids : List NodeId),
        (d.read m.1 m.2 ((subvalues m.1 m.2).refill ids)).node.at? (s.target value) token =
          d.node.at? (s.target value) token := by
      intro m hm' d ids
      have hne : m.1 ≠ key := by
        rintro rfl
        have hnodup := (List.nodup_append.mp (List.map_append ▸ hkeys.1)).2.1
        exact (List.nodup_cons.mp hnodup).1 (List.mem_map.mpr ⟨m, hm', rfl⟩)
      exact hc.at?_read hkeys.1 hm hs hu (List.mem_append_right _ (.tail _ hm')) hne d ids
    have hread : d'.node.at? (s.target value) token = some c :=
      (hafter.eq_of_frame (φ := fun d => d.node.at? (s.target value) token) hframe).trans hself
    have hsub : u ∈ (subvalues key value).items := by
      rw [subvalues, hs]
      exact List.mem_of_getElem? (Below.getElem?_items hu)
    exact ⟨u, c, _, hat, .member .self hm hsub, hnode,
      (Draft.at?_finish ..).trans (Draft.at?_readAdditional hread _ _)⟩
  | @furtherItems u d c hmembers hu hnode hat =>
    have hmem := Draft.mem_additionalItems (hu ▸ List.mem_singleton_self u)
    have hlists := (hmembers.itemsWereList hkeys.1).symm.trans hmem.2.1
    refine ⟨u, c, _, hat, .furtherItems .self hlists hmem.1 hmem.2.2.2, hnode, ?_⟩
    exact (Draft.at?_finish ..).trans (Draft.at?_readAdditional_self c hu)

/-- A pointer whose words name the slots of a location leads to the node that was loaded there. -/
theorem StoresAt.walkPointer {v : Value} (h : G.StoresAt v root location id)
    (hkeys : v.DistinctKeys) (hc : ∀ ms, SchemaAt v (.object ms) → Distinguishable ms)
    {word : Descent → String}
    (hword : ∀ step ∈ location, Slot.ofWord? (word step) = some step.slot) :
    G.walkPointer root (tokens word location) = some id := by
  induction location generalizing v root with
  | nil =>
    rw [h.eq_of_nil]
    rfl
  | cons step location ih =>
    obtain ⟨members, rfl⟩ := h.exists_object
    obtain ⟨u, c, n, hat, hu, hnode, hchild⟩ := h.descends.at? hkeys (hc _ .self)
    rw [List.forall_mem_cons] at hword
    show G.walkPointer root (word step :: (step.token.toList ++ tokens word location)) = some id
    rw [walkPointer_cons hnode hword.1 hchild]
    exact ih hat (hu.distinctKeys hkeys) (fun ms hms => hc ms (hu.trans hms)) hword.2

/-! ## Locations as they are written -/

theorem walkPointer_of_ofWord? {word : String} (h : Slot.ofWord? word = none) (root : NodeId)
    (rest : List String) : G.walkPointer root (word :: rest) = none := by
  rw [Graph.walkPointer, h]
  cases G.node? root <;> rfl

/-- No position is the word of a slot. -/
theorem ofWord?_indexToken (i : Nat) : Slot.ofWord? (indexToken i) = none := by
  have hword : ∀ s : Slot, s.word.toList.head?.map Char.isDigit = some false := by
    rintro (k | k | k) <;> cases k <;> decide
  have hdefinitions : "definitions".toList.head?.map Char.isDigit = some false := by decide
  have hdigits : (indexToken i).toList = Nat.toDigits 10 i := String.toList_ofList
  obtain ⟨c, cs, hc⟩ := List.exists_cons_of_ne_nil (Nat.toDigits_ne_nil (n := i) (b := 10))
  have hdigit : c.isDigit = true :=
    Nat.isDigit_of_mem_toDigits (by decide) (by decide) (hc ▸ List.mem_cons_self)
  have hhead : (indexToken i).toList.head?.map Char.isDigit = some true := by
    rw [hdigits, hc, List.head?_cons, Option.map_some, hdigit]
  rw [Slot.ofWord?_eq_none_iff]
  refine ⟨fun he => ?_, fun s he => ?_⟩
  · rw [he, hdefinitions] at hhead
    cases hhead
  · rw [← he, hword s] at hhead
    cases hhead

/-- A list of `items` is no subschema, so a position in it leads nowhere. -/
theorem walkPointer_items (G : Graph) (root : NodeId) (i : Nat) (rest : List String) :
    G.walkPointer root ("items" :: indexToken i :: rest) = none := by
  have hitems : Slot.ofWord? "items" = some (.child .items) := Slot.ofWord?_word (.child .items)
  rw [Graph.walkPointer, hitems]
  cases G.node? root with
  | none => rfl
  | some n =>
    cases hc : n.child .items with
    | none => simp only [hc]
    | some c =>
      simp only [hc]
      exact walkPointer_of_ofWord? (ofWord?_indexToken i) c rest

theorem Descends.key {step : Descent} (h : G.Descends members root location id step) :
    step.NamesSlot ∨ step.key = "items" ∧ (∃ i, step.token = some (indexToken i)) ∨
      step.key = "additionalItems" := by
  cases h with
  | @member before after key value u s d d' i token ids others c hmembers hs hu hlength hget hafter
      hnode hat =>
    rcases s.target_eq value with ht | ⟨rfl, ⟨items, rfl⟩, ht⟩
    · exact .inl (hs.trans (congrArg some ht.symm))
    · refine .inr (.inl ⟨(Slot.word_of_ofWord? hs (by simp)).symm, ?_⟩)
      simp only [Slot.below, Below.located, List.getElem?_mapIdx, Option.map_eq_some_iff,
        Prod.mk.injEq] at hu
      obtain ⟨item, -, rfl, -⟩ := hu
      exact ⟨i, rfl⟩
  | furtherItems => exact .inr (.inr rfl)

/-- As it is written, a pointer through a list of `items` or through `additionalItems` leads
nowhere. -/
theorem StoresAt.walkPointer_eq_none {v : Value} (h : G.StoresAt v root location id)
    (hkeys : v.DistinctKeys) (hc : ∀ ms, SchemaAt v (.object ms) → Distinguishable ms)
    (hword : ¬ ∀ step ∈ location, step.NamesSlot) :
    G.walkPointer root (tokens Descent.key location) = none := by
  induction location generalizing v root with
  | nil => simp at hword
  | cons step location ih =>
    obtain ⟨members, rfl⟩ := h.exists_object
    show G.walkPointer root (step.key :: (step.token.toList ++ tokens Descent.key location)) = none
    by_cases hstep : step.NamesSlot
    · obtain ⟨u, c, n, hat, hu, hnode, hchild⟩ := h.descends.at? hkeys (hc _ .self)
      rw [walkPointer_cons hnode hstep hchild]
      refine ih hat (hu.distinctKeys hkeys) (fun ms hms => hc ms (hu.trans hms)) fun hall => ?_
      exact hword (List.forall_mem_cons.mpr ⟨hstep, hall⟩)
    · rcases h.descends.key.resolve_left hstep with ⟨hkey, i, htoken⟩ | hkey
      · rw [hkey, htoken]
        exact walkPointer_items G root i _
      · rw [hkey]
        exact walkPointer_of_ofWord? rfl root _

/-! ## Pointers from the root -/

/-- The pointer of a location as it is written in the value. -/
def writtenPointer (location : List Descent) : String :=
  Reference.pointer (tokens Descent.key location)

/-- The pointer of a location by the slots that take the subschemas. -/
def slotPointer (location : List Descent) : String :=
  Reference.pointer (tokens (fun step => step.slot.word) location)

theorem staysInSchema_slotPointer (location : List Descent) :
    StaysInSchema (tokens (fun step => step.slot.word) location) := by
  have hword : ∀ s : Slot, s.word ≠ "" ∧ s.word ≠ "components" := by
    rintro (k | k | k) <;> cases k <;> decide
  cases location with
  | nil => simp [StaysInSchema, tokens]
  | cons step location =>
    rintro word ⟨⟩
    exact hword step.slot

theorem StoresAt.staysInSchema {v : Value} (h : G.StoresAt v root location id) :
    StaysInSchema (tokens Descent.key location) := by
  cases location with
  | nil => simp [StaysInSchema, tokens]
  | cons step location =>
    rintro word ⟨⟩
    obtain ⟨members, rfl⟩ := h.exists_object
    rcases h.descends.key with hstep | ⟨hkey, -⟩ | hkey
    · constructor <;> intro hkey <;> rw [Descent.NamesSlot, hkey] at hstep <;> cases hstep
    · rw [hkey]
      decide
    · rw [hkey]
      decide

/-- Every location of a subschema has a pointer that leads from the root to the node loaded there.
The pointer as it is written does so as well, but for those through a list of `items` or through
`additionalItems`, which lead nowhere. -/
theorem resolve_slotPointer {v : Value} {g : Graph} (hkeys : v.DistinctKeys)
    (hc : ∀ ms, SchemaAt v (.object ms) → Distinguishable ms) (hg : ofValue v = .ok g)
    (hat : LoadedAt {} v location id) :
    ∃ root, g.root? = some root ∧ g.resolve (some root) (slotPointer location) = some id ∧
      ((∀ step ∈ location, step.NamesSlot) →
        g.resolve (some root) (writtenPointer location) = some id) ∧
      ((¬ ∀ step ∈ location, step.NamesSlot) →
        g.locate (some root) (writtenPointer location) = none) := by
  obtain ⟨root, g₁, hroot, hrooted, hl, hkeeps⟩ := loads_of_ofValue hg
  have hstores : g.StoresAt v root location id := ⟨{}, g₁, .empty, hl, hkeeps, hat⟩
  have hbase : g.resourceRoot root = root :=
    hrooted.forest.resourceRoot_of_opens (.inr (hrooted.roots root (List.mem_of_head? hroot)).2)
  refine ⟨root, hroot, ?_, fun hnames => ?_, fun hnames => ?_⟩
  · refine resolve_pointer (staysInSchema_slotPointer location) ?_
    rw [hbase]
    exact hstores.walkPointer hkeys hc fun step _ => step.slot.ofWord?_word
  · refine resolve_pointer hstores.staysInSchema ?_
    rw [hbase]
    exact hstores.walkPointer hkeys hc hnames
  · rw [writtenPointer, locate_pointer hstores.staysInSchema, hbase]
    exact hstores.walkPointer_eq_none hkeys hc hnames

/-- A schema with a list of two items. -/
def listed : Value := .object [("items", .array [.bool true, .bool false])]

/-- A definition in the older spelling, under a name that needs escaping. -/
def listedBelow : Value := .object [("definitions", .object [("a/b", listed)])]

theorem schemaAt_listedBelow {u : Value} (h : SchemaAt listedBelow u) :
    u = listedBelow ∨ u = listed ∨ ∃ b, u = .bool b := by
  induction h with
  | self => exact .inl rfl
  | @member ms key value u _ hm hu ih =>
    rcases ih with h | h | ⟨b, h⟩
    · cases h
      cases List.mem_singleton.mp hm
      exact .inr (.inl (List.mem_singleton.mp hu))
    · cases h
      cases List.mem_singleton.mp hm
      have hu : u ∈ [Value.bool true, Value.bool false] := hu
      exact .inr (.inr (by simpa [or_comm] using hu))
    · cases h
  | @furtherItems ms u _ _ hm _ ih =>
    rcases ih with h | h | ⟨b, h⟩ <;> cases h <;> simp at hm

theorem loadedAt_second : LoadedAt {} listed [⟨"items", some "1", .list .prefixItems⟩] 1 := by
  have hu : ((Slot.child .items).below (.array [.bool true, .bool false])).located[1]? =
      some (some "1", .bool false) := rfl
  exact .member .nil rfl hu (.cons ⟨"#", rfl⟩ .nil) (.self ⟨"#", rfl⟩)

theorem resolve_slotPointer_listed : ∃ g root, ofValue listedBelow = .ok g ∧
    g.root? = some root ∧ g.resolve (some root) "#/%24defs/a~1b/prefixItems/1" = some 1 ∧
    g.locate (some root) "#/definitions/a~1b/items/1" = none := by
  have hu : ((Slot.map .defs).below (.object [("a/b", listed)])).located[0]? =
      some (some "a/b", listed) := rfl
  have hat : LoadedAt {} listedBelow
      [⟨"definitions", some "a/b", .map .defs⟩, ⟨"items", some "1", .list .prefixItems⟩] 1 :=
    .member .nil rfl hu .nil loadedAt_second
  obtain ⟨g, hg⟩ : ∃ g, ofValue listedBelow = .ok g := ⟨_, rfl⟩
  have hkeys : listedBelow.DistinctKeys := by
    simp [listedBelow, listed, Value.DistinctKeys, Value.DistinctKeysMembers,
      Value.DistinctKeysList]
  have hc : ∀ ms, SchemaAt listedBelow (.object ms) → Distinguishable ms := by
    intro ms h
    rcases schemaAt_listedBelow h with h | h | ⟨b, h⟩ <;> cases h
    · exact ⟨by decide, by decide, by simp⟩
    · exact ⟨by decide, by decide, by simp⟩
  obtain ⟨root, hroot, hslot, -, hwritten⟩ := resolve_slotPointer hkeys hc hg hat
  exact ⟨g, root, hg, hroot, hslot, hwritten (by decide)⟩

/-- The pointer of an item of a list is not always resolved as it is written. -/
theorem not_resolve_writtenPointer : ¬ ∀ (v : Value) (g : Graph) (location : List Descent)
    (id : NodeId), v.DistinctKeys → ofValue v = .ok g → LoadedAt {} v location id →
      g.resolve g.root? (writtenPointer location) = some id := by
  intro hall
  have hkeys : listed.DistinctKeys := by
    simp [listed, Value.DistinctKeys, Value.DistinctKeysMembers, Value.DistinctKeysList]
  have hnone : ((ofValue listed).toOption.bind fun g => g.resolve g.root? "#/items/1") = none := by
    decide +kernel
  obtain ⟨g, hg⟩ : ∃ g, ofValue listed = .ok g := ⟨_, rfl⟩
  rw [hg] at hnone
  cases (hall listed g _ 1 hkeys hg loadedAt_second).symm.trans hnone

end Graph

end OpenApi.Schema
