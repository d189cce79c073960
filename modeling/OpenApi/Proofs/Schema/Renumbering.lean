import OpenApi.Proofs.Schema.Held

/-!
# Loading elsewhere

A value is loaded into every graph in the same way, but for the numbers, which count on from the
size of the graph.

* `Node.renumber`, `Draft.read_renumber`: reading members commutes with renumbering subschemas;
* `Load.Copies`: two steps that push the same nodes, numbered from different numbers on;
* `copies_load`: loading a value twice, under any pointers;
* `Loads.accepted`: what is loaded somewhere is loaded everywhere.
-/

namespace OpenApi

/-! ## Maps with other values -/

namespace Entries

variable {α β : Type} (f : α → β)

/-- The entries with other values. -/
def mapValues (entries : List (String × α)) : List (String × β) :=
  entries.map fun e => (e.1, f e.2)

theorem map_fst_mapValues (entries : List (String × α)) :
    (mapValues f entries).map Prod.fst = entries.map Prod.fst := by
  simp [mapValues]

theorem get?_mapValues (key : String) (entries : List (String × α)) :
    get? key (mapValues f entries) = (get? key entries).map f := by
  induction entries with
  | nil => rfl
  | cons e rest ih =>
    rw [mapValues, List.map_cons, get?, get?]
    split
    · rfl
    · exact ih

theorem insert_mapValues (key : String) (value : α) (entries : List (String × α)) :
    insert key (f value) (mapValues f entries) = mapValues f (insert key value entries) := by
  induction entries with
  | nil => rfl
  | cons e rest ih =>
    rw [mapValues, List.map_cons, insert, insert]
    split
    · rfl
    · exact congrArg _ ih

end Entries

namespace OrderedMap

variable {α β : Type} (f : α → β)

/-- The map with other values. -/
def mapValues (m : OrderedMap α) : OrderedMap β where
  entries := Entries.mapValues f m.entries
  nodup := by
    rw [Entries.map_fst_mapValues]
    exact m.nodup

theorem get?_mapValues (m : OrderedMap α) (key : String) :
    (m.mapValues f).get? key = (m.get? key).map f := Entries.get?_mapValues f key m.entries

theorem values_mapValues (m : OrderedMap α) : (m.mapValues f).values = m.values.map f := by
  simp [values, mapValues, Entries.mapValues]

theorem insertAll_mapValues (m : OrderedMap α) (entries : List (String × α)) :
    (m.mapValues f).insertAll (Entries.mapValues f entries) =
      (m.insertAll entries).mapValues f := by
  induction entries generalizing m with
  | nil => rfl
  | cons e rest ih =>
    have hfirst : (m.mapValues f).insert e.1 (f e.2) = (m.insert e.1 e.2).mapValues f :=
      ext (Entries.insert_mapValues f e.1 e.2 m.entries)
    show ((m.mapValues f).insert e.1 (f e.2)).insertAll (Entries.mapValues f rest) = _
    rw [hfirst, ih]
    rfl

end OrderedMap

namespace Schema

open Json

/-! ## Nodes with other numbers -/

theorem map_update {κ α β : Type} [DecidableEq κ] (h : α → β) (g : κ → α) (k : κ) (a : α) :
    (fun k' => h (update g k a k')) = update (fun k' => h (g k')) k (h a) := by
  funext k'
  by_cases hk : k' = k
  · rw [hk, update_self, update_self]
  · rw [update_of_ne _ _ hk, update_of_ne _ _ hk]

section

variable (f : NodeId → NodeId)

/-- The node with other numbers for its subschemas. -/
def Node.renumber (n : Node) : Node :=
  { n with
    child := fun k => (n.child k).map f
    list := fun k => (n.list k).map f
    map := fun k => (n.map k).mapValues f }

/-- The draft with other numbers for the subschemas of its node. -/
def Draft.renumber (d : Draft) : Draft := { d with node := d.node.renumber f }

namespace Node

variable (n : Node)

theorem slot_renumber (s : Slot) : (n.renumber f).slot s = (n.slot s).map f := by
  cases s with
  | child k =>
    simp only [slot, renumber]
    cases n.child k <;> rfl
  | list k => rfl
  | map k => exact OrderedMap.values_mapValues f (n.map k)

theorem inferredTypes_renumber : (n.renumber f).inferredTypes = n.inferredTypes :=
  inferredTypes_congr rfl (fun k _ => by cases k <;> rfl) fun s => by
    rw [slot_renumber, List.length_map]

theorem withInferredTypes_renumber :
    (n.renumber f).withInferredTypes = n.withInferredTypes.renumber f := by
  simp only [withInferredTypes, inferredTypes_renumber]
  show (if n.types.isEmpty && (n.text .ref).isNone && (n.text .dynamicRef).isNone then _ else _) = _
  split <;> rfl

theorem withPlain?_renumber (keyword : Keyword) (value : Value) :
    (n.renumber f).withPlain? keyword value = (n.withPlain? keyword value).map (renumber f) := by
  cases keyword <;> simp only [withPlain?, Option.map_map, Option.map_none, Option.map_some] <;> rfl

end Node

/-! ## Drafts with other numbers -/

namespace Draft

variable (d : Draft) (key : String) (value : Value)

theorem readPlain_renumber (keyword : Keyword) :
    (d.renumber f).readPlain keyword key value = (d.readPlain keyword key value).renumber f := by
  have hplain : (d.renumber f).node.withPlain? keyword value =
      (d.node.withPlain? keyword value).map (Node.renumber f) := d.node.withPlain?_renumber f _ _
  rw [readPlain, readPlain, hplain]
  cases d.node.withPlain? keyword value <;> rfl

theorem readOther_renumber :
    (d.renumber f).readOther key value = (d.readOther key value).renumber f := by
  rw [readOther, readOther]
  split
  · rfl
  split
  · rfl
  split
  · cases value <;> rfl
  split
  · rfl
  split
  · exact d.readPlain_renumber f key value _
  · rfl

theorem setChild_renumber (k : ChildKeyword) (id : NodeId) :
    (d.renumber f).setChild k key value (some (f id)) =
      (d.setChild k key value (some id)).renumber f := by
  simp only [setChild, modify, renumber, Node.renumber, map_update (Option.map f)]
  rfl

theorem setList_renumber (k : ListKeyword) (ids : List NodeId) :
    (d.renumber f).setList k key value (some (ids.map f)) =
      (d.setList k key value (some ids)).renumber f := by
  simp only [setList, modify, renumber, Node.renumber, map_update (List.map f)]

theorem setMap_renumber (k : MapKeyword) (ids : List (String × NodeId)) :
    (d.renumber f).setMap k key value (some (Entries.mapValues f ids)) =
      (d.setMap k key value (some ids)).renumber f := by
  have hstart : (if k = .defs then (d.node.map k).mapValues f else .empty) =
      (if k = .defs then d.node.map k else .empty).mapValues f := by
    split <;> rfl
  simp only [setMap, modify, renumber, Node.renumber, map_update (OrderedMap.mapValues f), hstart,
    OrderedMap.insertAll_mapValues]

theorem fill_renumber (s : Slot) (ids : Below NodeId) :
    (d.renumber f).fill s key value (ids.each f) = (d.fill s key value ids).renumber f := by
  cases s with
  | child k =>
    cases ids with
    | one id =>
      cases k <;> exact d.setChild_renumber f key value _ id
    | list ids =>
      by_cases hk : k = .items
      · subst hk
        exact congrArg (fun d : Draft => { d with itemsWereList := true })
          (d.setList_renumber f key value .prefixItems ids)
      · cases k <;> first | rfl | exact absurd rfl hk
    | _ => cases k <;> rfl
  | list k =>
    cases ids with
    | list ids => exact d.setList_renumber f key value k ids
    | _ => rfl
  | map k =>
    cases ids with
    | map ids => exact d.setMap_renumber f key value k ids
    | _ => rfl

theorem read_renumber (ids : Below NodeId) :
    (d.renumber f).read key value (ids.each f) = (d.read key value ids).renumber f := by
  rw [read, read]
  split
  · exact d.fill_renumber f key value _ ids
  · exact d.readOther_renumber f key value

theorem additional_renumber : (d.renumber f).additional value = d.additional value := by
  rw [additional, additional]
  show (if d.itemsWereList && ((d.node.child .items).map f).isNone && isSchema value then _
    else _) = _
  rw [Option.isNone_map]

theorem finish_renumber (members : List (String × Value)) :
    (d.renumber f).finish members = (d.finish members).renumber f := by
  have hnull : ∀ present, (d.renumber f).finishNullable present =
      (d.finishNullable present).renumber f := by
    intro present
    rw [finishNullable, finishNullable]
    show (if d.nullable && !d.node.types.isEmpty then _
      else if present && d.node.types.isEmpty then _ else _) = _
    split
    · rfl
    · split <;> rfl
  rw [finish, finish, hnull, Node.withInferredTypes_renumber]

end Draft

end

/-! ## Graphs -/

/-- The number that counts from `b` what a number counts from `a`. -/
def moved (a b : NodeId) (id : NodeId) : NodeId := id - a + b

theorem moved_add (a b k : NodeId) : moved a b (a + k) = b + k := by
  rw [moved, Nat.add_sub_cancel_left, Nat.add_comm]

namespace Graph

variable {a b : NodeId} {g g' : Graph}

/-- From one number on, a graph holds the nodes that another holds from another number on. -/
structure Copies (a b : NodeId) (g g' : Graph) : Prop where
  exists_size : ∃ n, g.size = a + n ∧ g'.size = b + n
  node? : ∀ k, g'.node? (b + k) = (g.node? (a + k)).map (Node.renumber (moved a b))

theorem Copies.self (g g' : Graph) : Copies g.size g'.size g g' where
  exists_size := ⟨0, rfl, rfl⟩
  node? k := by
    have hnone : ∀ g : Graph, g.node? (g.size + k) = none := fun g =>
      Array.getElem?_eq_none (Nat.le_add_right _ _)
    rw [hnone g, hnone g']
    rfl

theorem Copies.moved_size (h : Copies a b g g') : moved a b g.size = g'.size := by
  obtain ⟨n, hn, hn'⟩ := h.exists_size
  rw [hn, moved_add, hn']

theorem Copies.push (h : Copies a b g g') (node : Node) :
    Copies a b (g.push node).2 (g'.push (node.renumber (moved a b))).2 where
  exists_size := by
    obtain ⟨n, hn, hn'⟩ := h.exists_size
    exact ⟨n + 1, by rw [size_push, hn, Nat.add_assoc], by rw [size_push, hn', Nat.add_assoc]⟩
  node? k := by
    obtain ⟨n, hn, hn'⟩ := h.exists_size
    simp only [node?_push, hn, hn', Nat.add_right_inj]
    split
    · rfl
    · exact h.node? k

end Graph

/-! ## Loading twice -/

section

variable {a b : NodeId} {α β γ δ : Type}

/-- Where the first step succeeds, the second one does and pushes the same nodes, counted from `b`
on as those of the first are from `a` on. -/
def Load.Copies (a b : NodeId) (x : Load α) (y : Load β) (f : α → β) : Prop :=
  ∀ g g' : Graph, g.Copies a b g' → ∀ r g₁, x.result g = (.ok r, g₁) →
    ∃ g₁', y.result g' = (.ok (f r), g₁') ∧ g₁.Copies a b g₁'

namespace Load.Copies

theorem pure {r : α} {r' : β} {f : α → β} (h : f r = r') :
    Load.Copies a b (Pure.pure r) (Pure.pure r') f := by
  intro g g' hg s g₁ hs
  cases hs
  exact ⟨g', by rw [h]; rfl, hg⟩

theorem bind {x : Load α} {y : Load β} {f : α → β} {u : α → Load γ} {v : β → Load δ} {f' : γ → δ}
    (hx : Load.Copies a b x y f) (hu : ∀ r, Load.Copies a b (u r) (v (f r)) f') :
    Load.Copies a b (x >>= u) (y >>= v) f' := by
  intro g g' hg s g₁ hs
  obtain ⟨r, g₂, hr, hs⟩ := Load.result_bind_eq_ok_iff.mp hs
  obtain ⟨g₂', hr', hg₂⟩ := hx g g' hg r g₂ hr
  obtain ⟨g₁', hs', hg₁⟩ := hu r g₂ g₂' hg₂ s g₁ hs
  exact ⟨g₁', Load.result_bind_eq_ok_iff.mpr ⟨f r, g₂', hr', hs'⟩, hg₁⟩

theorem map {x : Load α} {y : Load β} {f : α → β} {u : α → γ} {v : β → δ} {f' : γ → δ}
    (hx : Load.Copies a b x y f) (hu : ∀ r, f' (u r) = v (f r)) :
    Load.Copies a b (u <$> x) (v <$> y) f' := by
  rw [map_eq_pure_bind, map_eq_pure_bind]
  exact hx.bind fun r => .pure (hu r)

theorem pushNode (node : Node) :
    Load.Copies a b (pushNode node) (Schema.pushNode (node.renumber (moved a b))) (moved a b) := by
  intro g g' hg id g₁ h
  cases h
  refine ⟨(g'.push (node.renumber (moved a b))).2, ?_, hg.push node⟩
  rw [hg.moved_size]
  rfl

end Load.Copies

theorem copies_loadItems {values : List Value}
    (h : ∀ v ∈ values, ∀ p p', Load.Copies a b (load p v) (load p' v) (moved a b))
    (p p' : String) (i i' : Nat) :
    Load.Copies a b (loadItems p i values) (loadItems p' i' values) (List.map (moved a b)) := by
  induction values generalizing i i' with
  | nil =>
    rw [loadItems, loadItems]
    exact .pure rfl
  | cons v vs ih =>
    rw [List.forall_mem_cons] at h
    rw [loadItems, loadItems]
    exact (h.1 _ _).bind fun id => (ih h.2 _ _).bind fun ids => .pure rfl

theorem copies_loadEntries {entries : List (String × Value)}
    (h : ∀ v ∈ entries.map Prod.snd, ∀ p p',
      Load.Copies a b (load p v) (load p' v) (moved a b)) (p p' : String) :
    Load.Copies a b (loadEntries p entries) (loadEntries p' entries)
      (Entries.mapValues (moved a b)) := by
  induction entries with
  | nil =>
    rw [loadEntries, loadEntries]
    exact .pure rfl
  | cons entry rest ih =>
    obtain ⟨key, v⟩ := entry
    rw [List.map_cons, List.forall_mem_cons] at h
    rw [loadEntries, loadEntries]
    exact (h.1 _ _).bind fun id => (ih h.2).bind fun ids => .pure rfl

theorem copies_loadBelow {values : Below Value}
    (h : ∀ v ∈ values.items, ∀ p p', Load.Copies a b (load p v) (load p' v) (moved a b))
    (p p' : String) :
    Load.Copies a b (loadBelow p values) (loadBelow p' values) (Below.each (moved a b)) := by
  cases values with
  | nothing => exact .pure rfl
  | one v => exact (h v List.mem_cons_self p p').map fun _ => rfl
  | list values => exact (copies_loadItems h p p' 0 0).map fun _ => rfl
  | map entries => exact (copies_loadEntries h p p').map fun _ => rfl

theorem copies_loadMembers {members : List (String × Value)}
    (h : ∀ m ∈ members, ∀ v ∈ (subvalues m.1 m.2).items, ∀ p p',
      Load.Copies a b (load p v) (load p' v) (moved a b)) (p p' : String) (d : Draft) :
    Load.Copies a b (loadMembers p d members) (loadMembers p' (d.renumber (moved a b)) members)
      (Draft.renumber (moved a b)) := by
  induction members generalizing d with
  | nil =>
    rw [loadMembers, loadMembers]
    exact .pure rfl
  | cons member rest ih =>
    obtain ⟨key, v⟩ := member
    rw [List.forall_mem_cons] at h
    rw [loadMembers_cons, loadMembers_cons]
    refine (copies_loadBelow h.1 _ _).bind fun ids => ?_
    rw [d.read_renumber]
    exact ih h.2 _

theorem copies_loadAdditionalItems {members : List (String × Value)} {d : Draft}
    (h : ∀ v ∈ d.additionalItems members, ∀ p p',
      Load.Copies a b (load p v) (load p' v) (moved a b)) (p p' : String) :
    Load.Copies a b (loadAdditionalItems p d members)
      (loadAdditionalItems p' (d.renumber (moved a b)) members) (Draft.renumber (moved a b)) := by
  rw [loadAdditionalItems_eq, loadAdditionalItems_eq]
  rw [Draft.additionalItems] at h
  split
  next v hv =>
    rw [hv] at h
    rw [d.additional_renumber]
    exact (copies_loadBelow h _ _).bind fun ids => .pure (d.fill_renumber _ _ _ _ ids).symm
  next => exact .pure rfl

/-- Loading a value a second time, wherever it stands then, pushes the same nodes. -/
theorem copies_load (value : Value) (p p' : String) :
    Load.Copies a b (load p value) (load p' value) (moved a b) := by
  induction hn : sizeOf value using Nat.strongRecOn generalizing value p p' with
  | ind n ih =>
    subst hn
    cases value with
    | bool v =>
      rw [load, load]
      exact .pushNode (.ofBool v)
    | object members =>
      have below : ∀ v, sizeOf v < sizeOf (Value.object members) →
          ∀ p p', Load.Copies a b (load p v) (load p' v) (moved a b) :=
        fun v hv p p' => ih _ hv v p p' rfl
      rw [load, load]
      refine Load.Copies.bind (f := Draft.renumber (moved a b)) ?_ fun d =>
        Load.Copies.bind (f := Draft.renumber (moved a b)) ?_ fun d' => ?_
      · exact copies_loadMembers (fun m hm v hv => below v <|
          Nat.lt_of_le_of_lt (sizeOf_le_of_mem_subvalues hv) (sizeOf_lt_object hm)) p p' {}
      · exact copies_loadAdditionalItems (fun v hv => below v <|
          sizeOf_lt_object (Draft.mem_additionalItems hv).1) p p'
      · have hfinish := d'.finish_renumber (moved a b) members
        rw [Draft.finish, Draft.finish] at hfinish
        rw [hfinish]
        exact .pushNode _
    | _ =>
      intro g g' _ r g₁ h
      simp only [load] at h
      cases h

/-- A value that is loaded somewhere is loaded everywhere. -/
theorem Loads.accepted {g g₁ : Graph} {value : Value} {id : NodeId} (h : Loads g value id g₁) :
    Accepted value := by
  obtain ⟨p, h⟩ := h
  intro p' g'
  obtain ⟨g₁', h', -⟩ := copies_load value p p' g g' (.self g g') id g₁ h
  exact ⟨_, g₁', h'⟩

/-- Two graphs that load the same value hold the same nodes of it. -/
theorem Loads.copies {g g' g₁ g₁' : Graph} {value : Value} {id id' : NodeId}
    (h : Loads g value id g₁) (h' : Loads g' value id' g₁') :
    g₁.Copies g.size g'.size g₁' ∧ id' = moved g.size g'.size id := by
  obtain ⟨p, h⟩ := h
  obtain ⟨p', h'⟩ := h'
  obtain ⟨g₂, h₂, hcopies⟩ := copies_load value p p' g g' (.self g g') id g₁ h
  rw [h'] at h₂
  cases h₂
  exact ⟨hcopies, rfl⟩

end

end Schema

end OpenApi
