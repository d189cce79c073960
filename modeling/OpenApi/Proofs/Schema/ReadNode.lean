import OpenApi.Proofs.Schema.Draft

/-!
# What a node holds of an object

The node of an object with distinct keys, told from its members: what the older forms and the
keywords around types come to, and where everything is found in the node.

* `ReadsObject.plainValue?`, `ReadsObject.types`: the keywords without subschemas;
* `ReadsObject.child`, `ReadsObject.list`, `ReadsObject.map`: the subschemas;
* `ReadsObject.extensions`, `ReadsObject.annotations`, `ReadsObject.custom`: the members that are
  kept.
-/

namespace OpenApi.Schema

open Json

/-! ## Members taken together -/

section

variable (ms : List (String × Value))

/-- Whether the members say that null is allowed. -/
def allowsNull : Bool := ((Entries.get? "nullable" ms).bind Value.bool?).getD false

/-- Whether the items are listed in the older form. -/
def listsItems : Bool := ((Entries.get? "items" ms).bind Value.items?).isSome

/-- The types that the members declare, with `null` if it is allowed beside others. -/
def shownTypes : TypeSet :=
  let types := declaredTypes (Entries.get? "type" ms)
  if allowsNull ms && !types.isEmpty then types.insert "null" else types

/-- The annotation that `nullable` is without declared types. -/
def nullableNote : List (String × Value) :=
  if (Entries.get? "nullable" ms).isSome && (declaredTypes (Entries.get? "type" ms)).isEmpty then
    [("nullable", .bool (allowsNull ms))]
  else []

/-- The custom keyword that `additionalItems` is where it does not count. -/
def additionalNote : List (String × Value) :=
  match Entries.get? "additionalItems" ms with
  | some v => if listsItems ms && isSchema v then [] else [("additionalItems", v)]
  | none => []

/-- The value that holds the only subschema of a keyword. -/
def childSource (k : ChildKeyword) : Option Value :=
  if k = .items ∧ listsItems ms then Entries.get? "additionalItems" ms
  else Entries.get? k.word ms

end

theorem additionalNote_eq (ms : List (String × Value)) :
    additionalNote ms = [] ∨ ∃ v, additionalNote ms = [("additionalItems", v)] := by
  rw [additionalNote]
  split
  · split
    · exact .inl rfl
    · exact .inr ⟨_, rfl⟩
  · exact .inl rfl

theorem isEmpty_shownTypes (ms : List (String × Value)) :
    (shownTypes ms).isEmpty = (declaredTypes (Entries.get? "type" ms)).isEmpty := by
  have insert : ∀ (t : TypeSet) name, (t.insert name).isEmpty = true → t.isEmpty = true := by
    intro t name h
    rw [TypeSet.insert] at h
    split at h
    · exact h
    · simp [TypeSet.isEmpty] at h
  simp only [shownTypes]
  split
  · rename_i hc
    rw [Bool.and_eq_true, Bool.not_eq_true'] at hc
    rw [hc.2, Bool.eq_false_iff]
    intro hi
    rw [insert _ _ hi] at hc
    cases hc.2
  · rfl

/-! ## Finishing -/

namespace Draft

variable (d : Draft) (ms : List (String × Value))

/-- Finishing changes the types and the annotations only. -/
theorem finish_eq : ∃ types inferred annotations,
    d.finish ms = { d.node with types, typesInferred := inferred, annotations } := by
  simp only [finish, finishNullable, Node.withInferredTypes]
  split <;> split <;> try split
  all_goals exact ⟨_, _, _, rfl⟩

theorem plainValue?_finish {k : Keyword} (hk : k ≠ .type) :
    (d.finish ms).plainValue? k = d.node.plainValue? k := by
  obtain ⟨types, inferred, annotations, he⟩ := d.finish_eq ms
  rw [he]
  cases k <;> first | rfl | exact absurd rfl hk

theorem annotations_finish : (d.finish ms).annotations =
    if (Entries.get? "nullable" ms).isSome && d.node.types.isEmpty then
      d.node.annotations.insert "nullable" (.bool d.nullable)
    else d.node.annotations := by
  have hi : ∀ n : Node, n.withInferredTypes.annotations = n.annotations := by
    intro n
    rw [Node.withInferredTypes]
    split <;> rfl
  rw [finish, hi, finishNullable]
  cases ht : d.node.types.isEmpty <;> cases (Entries.get? "nullable" ms).isSome <;>
    cases d.nullable <;> rfl

/-- The types with `null` if it is allowed beside others, and inferred ones if there are none. -/
theorem types_finish (h : d.node.typesInferred = false) :
    ((d.finish ms).types, (d.finish ms).typesInferred) =
      let types := if d.nullable && !d.node.types.isEmpty then d.node.types.insert "null"
        else d.node.types
      let inferred := (d.finish ms).inferredTypes
      if types.isEmpty && ((d.finish ms).text .ref).isNone &&
          ((d.finish ms).text .dynamicRef).isNone then (inferred, !inferred.isEmpty)
      else (types, false) := by
  have hi : ∀ n : Node, n.typesInferred = false →
      (n.withInferredTypes.types, n.withInferredTypes.typesInferred) =
        if n.types.isEmpty && (n.withInferredTypes.text .ref).isNone &&
            (n.withInferredTypes.text .dynamicRef).isNone then
          (n.withInferredTypes.inferredTypes, !n.withInferredTypes.inferredTypes.isEmpty)
        else (n.types, false) := by
    intro n hn
    rw [Node.withInferredTypes]
    split
    · rfl
    · rw [hn]
  have hnull : ∀ present, (d.finishNullable present).types =
      (if d.nullable && !d.node.types.isEmpty then d.node.types.insert "null"
        else d.node.types) ∧ (d.finishNullable present).typesInferred = false := by
    intro present
    rw [finishNullable]
    split
    · exact ⟨rfl, h⟩
    · split <;> exact ⟨rfl, h⟩
  obtain ⟨ht, hf⟩ := hnull (Entries.get? "nullable" ms).isSome
  rw [finish, hi _ hf, ht]

end Draft

/-! ## The node -/

section

variable {S : Value → NodeId → Prop} {ms : List (String × Value)} {d : Draft}

/-- An array of items leaves the slot for one schema empty. -/
theorem Reads.child_items_of_listsItems (h : Reads S {} ms d) (hkeys : (ms.map Prod.fst).Nodup)
    (hl : listsItems ms) : d.node.child .items = none := by
  have hchild := h.child hkeys .items
  obtain ⟨items, hitems⟩ := Option.isSome_iff_exists.mp hl
  obtain ⟨v, hget, hv⟩ := Option.bind_eq_some_iff.mp hitems
  have hv : isSchema v = false := by
    cases v <;> first | rfl | cases hv
  rw [show ChildKeyword.items.word = "items" from rfl, hget, Option.filter_some, hv] at hchild
  cases hc : d.node.child .items with
  | none => rfl
  | some =>
    rw [hc] at hchild
    cases hchild

theorem Reads.additional (h : Reads S {} ms d) (hkeys : (ms.map Prod.fst).Nodup) (value : Value) :
    d.additional value = if listsItems ms && isSchema value then .one value else .nothing := by
  have hlist : d.itemsWereList = listsItems ms := h.itemsWereList hkeys
  rw [Draft.additional, hlist]
  cases hl : listsItems ms with
  | false => rfl
  | true =>
    rw [h.child_items_of_listsItems hkeys hl]
    rfl

/-- The draft of an object after `additionalItems`. -/
theorem Reads.readAdditional {ids : List NodeId} (h : Reads S {} ms d)
    (hkeys : (ms.map Prod.fst).Nodup) (ha : List.Forall₂ S (d.additionalItems ms) ids) :
    ∃ child, d.readAdditional ms ids = { d with node := { d.node with
      child, custom := d.node.custom.insertAll (additionalNote ms) } } ∧
      ∀ k, Option.Rel S ((childSource ms k).filter (isSchema ·)) (child k) := by
  -- Without a schema under `additionalItems`, the members alone decide.
  have members : (listsItems ms → (Entries.get? "additionalItems" ms).filter (isSchema ·) = none) →
      ∀ k, Option.Rel S ((childSource ms k).filter (isSchema ·)) (d.node.child k) := by
    intro hnone k
    rw [childSource]
    split
    · rename_i hc
      rw [hnone hc.2, hc.1, h.child_items_of_listsItems hkeys hc.2]
      exact .none
    · exact h.child hkeys k
  rw [Draft.readAdditional, additionalNote]
  rw [Draft.additionalItems] at ha
  cases hget : Entries.get? "additionalItems" ms with
  | none => exact ⟨d.node.child, rfl, members fun _ => by rw [hget]; rfl⟩
  | some value =>
    rw [hget] at ha
    simp only [h.additional hkeys value] at ha ⊢
    split
    · rename_i hc
      rw [if_pos hc] at ha
      rw [Bool.and_eq_true] at hc
      obtain ⟨id, _, hid, ⟨⟩, rfl⟩ := List.forall₂_cons_left_iff.mp ha
      refine ⟨update d.node.child .items (some id), rfl, fun k => ?_⟩
      by_cases hk : k = .items
      · subst hk
        rw [update_self, childSource, if_pos ⟨rfl, hc.1⟩, hget, Option.filter_some, if_pos hc.2]
        exact .some hid
      · rw [update_of_ne _ _ hk, childSource, if_neg fun hc => hk hc.1]
        exact h.child hkeys k
    · rename_i hc
      refine ⟨d.node.child, ?_, members fun hl => ?_⟩
      · rw [Below.refill_nothing, Draft.fill_nothing]
        rfl
      · rw [hget, Option.filter_some, if_neg fun hv => hc (by rw [hl, hv]; rfl)]

end

namespace ReadsObject

variable {S : Value → NodeId → Prop} {ms : List (String × Value)} {n : Node}

theorem exists_draft (h : ReadsObject S ms n) (hkeys : (ms.map Prod.fst).Nodup) :
    ∃ d child, Reads S {} ms d ∧ n = ({ d with node := { d.node with
      child, custom := d.node.custom.insertAll (additionalNote ms) } } : Draft).finish ms ∧
      ∀ k, Option.Rel S ((childSource ms k).filter (isSchema ·)) (child k) := by
  obtain @⟨d, ids, hd, ha⟩ := h
  obtain ⟨child, he, hchild⟩ := hd.readAdditional hkeys ha
  exact ⟨d, child, hd, by rw [he], hchild⟩

/-- What holds of all subschemas that are read holds of those in the slots. -/
theorem forall_slot {P : NodeId → Prop} (h : ReadsObject (fun _ c => P c) ms n) (s : Slot) :
    ∀ c ∈ n.slot s, P c := by
  have all : ∀ {vs : List Value} {ids}, List.Forall₂ (fun _ c => P c) vs ids → ∀ c ∈ ids, P c := by
    intro vs ids h
    induction h with
    | nil => simp
    | cons hc _ ih => exact List.forall_mem_cons.mpr ⟨hc, ih⟩
  have step : ∀ {n n' : Node} {ids : List NodeId}, SlotChange n n' ids → (∀ c ∈ ids, P c) →
      (∀ s, ∀ c ∈ n.slot s, P c) → ∀ s, ∀ c ∈ n'.slot s, P c := by
    rintro n n' ids ⟨-, s, hother, hmem, -⟩ hids hn s' c hc
    by_cases hs : s' = s
    · subst hs
      exact (hmem c hc).elim (hn s' c) (hids c)
    · exact hn s' c (hother s' hs ▸ hc)
  have reads : ∀ {d d' : Draft} {ms}, Reads (fun _ c => P c) d ms d' →
      (∀ s, ∀ c ∈ d.node.slot s, P c) → ∀ s, ∀ c ∈ d'.node.slot s, P c := by
    intro d d' ms hr hd
    induction hr with
    | nil => exact hd
    | @cons d d' key value rest ids hids _ ih =>
      have hc := d.slotChange_read key value ((subvalues key value).refill ids)
      rw [Below.items_refill hids.length_eq.symm] at hc
      exact ih (step hc (all hids) hd)
  obtain @⟨d, ids, hd, ha⟩ := h
  have hempty : ∀ s, ∀ c ∈ ({} : Draft).node.slot s, P c := by
    intro s c hc
    cases s <;> cases hc
  have hslot := ((d.readAdditional ms ids).slot_finish ms).2
  rw [hslot]
  exact step (d.slotChange_readAdditional ms ha.length_eq.symm) (all ha)
    (reads hd hempty) s

theorem boolean (h : ReadsObject S ms n) (hkeys : (ms.map Prod.fst).Nodup) : n.boolean = none := by
  obtain ⟨d, child, hd, rfl, -⟩ := h.exists_draft hkeys
  obtain ⟨_, _, _, he⟩ := Draft.finish_eq _ ms
  rw [he]
  exact hd.boolean

theorem child (h : ReadsObject S ms n) (hkeys : (ms.map Prod.fst).Nodup) (k : ChildKeyword) :
    Option.Rel S ((childSource ms k).filter (isSchema ·)) (n.child k) := by
  obtain ⟨d, child, -, rfl, hchild⟩ := h.exists_draft hkeys
  obtain ⟨_, _, _, he⟩ := Draft.finish_eq _ ms
  rw [he]
  exact hchild k

theorem list (h : ReadsObject S ms n) (hkeys : (ms.map Prod.fst).Nodup) (k : ListKeyword)
    (hi : k = .prefixItems → listsItems ms = false) :
    List.Forall₂ S (((Entries.get? k.word ms).bind Value.items?).getD []) (n.list k) := by
  obtain ⟨d, child, hd, rfl, -⟩ := h.exists_draft hkeys
  obtain ⟨_, _, _, he⟩ := Draft.finish_eq _ ms
  rw [he]
  refine hd.list hkeys k fun hk => ?_
  have := hi hk
  rwa [listsItems, Option.isSome_eq_false_iff, Option.isNone_iff_eq_none] at this

theorem map (h : ReadsObject S ms n) (hkeys : (ms.map Prod.fst).Nodup) (k : MapKeyword)
    (hd : k = .defs → (Entries.get? "definitions" ms).bind Value.members? = none) :
    ∃ ids, List.Forall₂ S
      ((((Entries.get? k.word ms).bind Value.members?).getD []).map Prod.snd) ids ∧
      n.map k = .ofList
        (((((Entries.get? k.word ms).bind Value.members?).getD []).map Prod.fst).zip ids) := by
  obtain ⟨d, child, hr, rfl, -⟩ := h.exists_draft hkeys
  obtain ⟨_, _, _, he⟩ := Draft.finish_eq _ ms
  rw [he]
  exact hr.map hkeys k hd

theorem plainValue? (h : ReadsObject S ms n) (hkeys : (ms.map Prod.fst).Nodup) {k : Keyword}
    (hp : k.isPlain) (hk : k ≠ .type) :
    n.plainValue? k = (Entries.get? k.word ms).bind k.normal? := by
  obtain ⟨d, child, hd, rfl, -⟩ := h.exists_draft hkeys
  rw [Draft.plainValue?_finish _ _ hk, ← hd.plainValue? hkeys hp hk]
  cases k <;> rfl

theorem extensions (h : ReadsObject S ms n) (hkeys : (ms.map Prod.fst).Nodup) :
    n.extensions.entries = ms.filter fun m => Text.startsWith "x-" m.1 := by
  obtain ⟨d, child, hd, rfl, -⟩ := h.exists_draft hkeys
  obtain ⟨_, _, _, he⟩ := Draft.finish_eq _ ms
  rw [he]
  exact hd.extensions hkeys

/-- The annotations are kept in order, with that of `nullable` at the end. -/
theorem annotations (h : ReadsObject S ms n) (hkeys : (ms.map Prod.fst).Nodup) :
    n.annotations.entries =
      (ms.filter fun m => annotationWords.contains m.1) ++ nullableNote ms := by
  obtain ⟨d, child, hd, rfl, -⟩ := h.exists_draft hkeys
  have ha := hd.annotations hkeys
  have hn := hd.nullable hkeys
  rw [Draft.annotations_finish, nullableNote, ← hd.types hkeys]
  split
  · have hfresh : "nullable" ∉ d.node.annotations.entries.map Prod.fst := by
      rw [ha]
      intro hm
      obtain ⟨m, hm, he⟩ := List.mem_map.mp hm
      have := (List.mem_filter.mp hm).2
      rw [he] at this
      cases this
    show Entries.insert _ _ _ = _
    rw [Entries.insert_of_notMem hfresh, ha, hn]
    rfl
  · rw [List.append_nil]
    exact ha

/-- The custom keywords are kept in order, with `additionalItems` at the end. -/
theorem custom (h : ReadsObject S ms n) (hkeys : (ms.map Prod.fst).Nodup) :
    n.custom.entries = (ms.filter fun m => isKept m.1 m.2) ++ additionalNote ms := by
  obtain ⟨d, child, hd, rfl, -⟩ := h.exists_draft hkeys
  obtain ⟨_, _, _, he⟩ := Draft.finish_eq _ ms
  rw [he, ← hd.custom hkeys]
  show (d.node.custom.insertAll (additionalNote ms)).entries = _
  rcases additionalNote_eq ms with hnote | ⟨v, hnote⟩
  · rw [hnote, List.append_nil]
    rfl
  · have hfresh : "additionalItems" ∉ d.node.custom.entries.map Prod.fst := by
      rw [hd.custom hkeys]
      intro hm
      obtain ⟨m, hm, he⟩ := List.mem_map.mp hm
      rw [List.mem_filter, isKept_eq_false (.inr (.inr he))] at hm
      cases hm.2
    rw [hnote]
    exact Entries.insert_of_notMem hfresh

/-- The types are those shown, or inferred ones if there are none and no reference. -/
theorem types (h : ReadsObject S ms n) (hkeys : (ms.map Prod.fst).Nodup) :
    (n.types, n.typesInferred) =
      if (shownTypes ms).isEmpty && (n.text .ref).isNone && (n.text .dynamicRef).isNone then
        (n.inferredTypes, !n.inferredTypes.isEmpty)
      else (shownTypes ms, false) := by
  obtain ⟨d, child, hd, rfl, -⟩ := h.exists_draft hkeys
  have ht := Draft.types_finish { d with node := { d.node with
    child, custom := d.node.custom.insertAll (additionalNote ms) } } ms hd.typesInferred
  have hshown : shownTypes ms =
      if d.nullable && !d.node.types.isEmpty then d.node.types.insert "null" else d.node.types := by
    rw [hd.nullable hkeys, hd.types hkeys]
    rfl
  rw [hshown]
  exact ht

end ReadsObject

end OpenApi.Schema
