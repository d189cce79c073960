import OpenApi.Proofs.Schema.Forest
import OpenApi.Proofs.Schema.Loading
import OpenApi.Proofs.Schema.Plain

/-!
# Forests by loading

Loading pushes forests. While a schema is read, its draft holds distinct subschemas without parents
that are new in the graph (`Placed`); every member changes one slot at most (`SlotChange`).

* `Loads.extends`: what loading a value does to a graph. It keeps the nodes and their parents, and
  the value gets the last number, without a parent;
* `Graph.Built.rooted`: the graphs that insertions build are forests, their top-level schemas
  without parents.
-/

namespace OpenApi.Schema

open Json

/-! ## Drafts -/

namespace Below

theorem items_refill {b : Below α} {items : List β} (h : items.length = b.items.length) :
    (b.refill items).items = items := by
  cases b with
  | nothing => exact (List.eq_nil_of_length_eq_zero h).symm
  | one item =>
    obtain ⟨item', rfl⟩ := List.length_eq_one_iff.mp h
    rfl
  | list => rfl
  | map entries =>
    simp only [Below.items, List.length_map] at h
    simp only [refill, Below.items]
    exact List.map_snd_zip (by simp [h])

end Below

/-- Which subschemas a change to a node leaves alone: all but those of one slot, which are
replaced, or to which others are added. -/
structure SlotChange (n n' : Node) (ids : List NodeId) : Prop where
  boolean : n'.boolean = n.boolean
  slot : ∃ s, (∀ s' ≠ s, n'.slot s' = n.slot s') ∧
    (∀ c ∈ n'.slot s, c ∈ n.slot s ∨ c ∈ ids) ∧
    ((n.slot s).Nodup → ids.Nodup → (∀ c ∈ ids, c ∉ n.slot s) → (n'.slot s).Nodup)

namespace SlotChange

variable {n n' : Node} {ids : List NodeId}

theorem of_eq (hb : n'.boolean = n.boolean) (h : n'.slot = n.slot) : SlotChange n n' ids where
  boolean := hb
  slot := ⟨.map .defs, fun _ _ => by rw [h], fun _ hc => .inl (h ▸ hc), fun hn _ _ => h ▸ hn⟩

theorem of_replaced (hb : n'.boolean = n.boolean) (s : Slot) (ho : ∀ s' ≠ s, n'.slot s' = n.slot s')
    (hs : n'.slot s = ids) : SlotChange n n' ids where
  boolean := hb
  slot := ⟨s, ho, fun _ hc => .inr (hs ▸ hc), fun _ hn _ => hs ▸ hn⟩

end SlotChange

theorem Node.slot_update_child (n : Node) (k : ChildKeyword) (id : NodeId) (s : Slot) :
    { n with child := update n.child k (some id) }.slot s =
      if s = .child k then [id] else n.slot s := by
  cases s with
  | child k' =>
    by_cases hk : k' = k
    · simp [slot, hk]
    · simp [slot, hk, update_of_ne]
  | _ => rfl

theorem Node.slot_update_list (n : Node) (k : ListKeyword) (ids : List NodeId) (s : Slot) :
    { n with list := update n.list k ids }.slot s = if s = .list k then ids else n.slot s := by
  cases s with
  | list k' =>
    by_cases hk : k' = k
    · simp [slot, hk]
    · simp [slot, hk, update_of_ne]
  | _ => rfl

theorem Node.slot_update_map (n : Node) (k : MapKeyword) (m : OrderedMap NodeId) (s : Slot) :
    { n with map := update n.map k m }.slot s = if s = .map k then m.values else n.slot s := by
  cases s with
  | map k' =>
    by_cases hk : k' = k
    · simp [slot, hk]
    · simp [slot, hk, update_of_ne]
  | _ => rfl

theorem Draft.slotChange_keep (d : Draft) (key : String) (value : Value) (ids : List NodeId) :
    SlotChange d.node (d.keep key value).node ids :=
  .of_eq rfl rfl

theorem Draft.slotChange_fill (d : Draft) (s : Slot) (key : String) (value : Value)
    (ids : Below NodeId) : SlotChange d.node (d.fill s key value ids).node ids.items := by
  unfold fill
  split
  · exact .of_replaced rfl _ (fun s' hs' => (d.node.slot_update_list _ _ s').trans (if_neg hs'))
      ((d.node.slot_update_list _ _ _).trans (if_pos rfl))
  · exact .of_replaced rfl _ (fun s' hs' => (d.node.slot_update_child _ _ s').trans (if_neg hs'))
      ((d.node.slot_update_child _ _ _).trans (if_pos rfl))
  · exact .of_replaced rfl _ (fun s' hs' => (d.node.slot_update_list _ _ s').trans (if_neg hs'))
      ((d.node.slot_update_list _ _ _).trans (if_pos rfl))
  · rename_i k entries
    refine ⟨rfl, .map k, fun s' hs' => (d.node.slot_update_map _ _ s').trans (if_neg hs'), ?_⟩
    have hs : (d.setMap k key value (some entries)).node.slot (.map k) =
        ((if k = .defs then d.node.map k else .empty).insertAll entries).values :=
      (d.node.slot_update_map _ _ _).trans (if_pos rfl)
    rw [hs]
    split
    · exact ⟨fun c hc => OrderedMap.mem_values_insertAll hc,
        OrderedMap.nodup_values_insertAll⟩
    · refine ⟨fun c hc => .inr ?_, fun _ hn _ => OrderedMap.nodup_values_insertAll .nil hn ?_⟩
      · exact (OrderedMap.mem_values_insertAll hc).resolve_left (by simp [OrderedMap.values])
      · simp [OrderedMap.values]
  · exact d.slotChange_keep key value _

theorem Draft.slotChange_readOther (d : Draft) (key : String) (value : Value) (ids : List NodeId) :
    SlotChange d.node (d.readOther key value).node ids := by
  rw [readOther]
  split
  · exact .of_eq rfl rfl
  split
  · exact .of_eq rfl rfl
  split
  · cases value <;> exact .of_eq rfl rfl
  split
  · exact .of_eq rfl rfl
  split
  · rw [readPlain]
    split
    · rename_i h
      obtain ⟨hb, hc, hl, hm, -⟩ := Node.others_withPlain? h
      refine .of_eq hb (funext fun s => ?_)
      cases s with
      | child k => exact congrArg (fun f => (f k).toList) hc
      | list k => exact congrArg (· k) hl
      | map k => exact congrArg (fun f => (f k).values) hm
    · exact d.slotChange_keep key value ids
  · exact d.slotChange_keep key value ids

theorem Draft.slotChange_read (d : Draft) (key : String) (value : Value) (ids : Below NodeId) :
    SlotChange d.node (d.read key value ids).node ids.items := by
  rw [read]
  split
  · exact d.slotChange_fill _ key value ids
  · exact d.slotChange_readOther key value _

theorem Draft.slotChange_readAdditional (d : Draft) (members : List (String × Value))
    {ids : List NodeId} (h : ids.length = (d.additionalItems members).length) :
    SlotChange d.node (d.readAdditional members ids).node ids := by
  rw [readAdditional]
  rw [additionalItems] at h
  split
  · rename_i value hv
    rw [hv] at h
    have := d.slotChange_fill (.child .items) "additionalItems" value
      ((d.additional value).refill ids)
    rwa [Below.items_refill h] at this
  · exact .of_eq rfl rfl

theorem Draft.slot_finish (d : Draft) (members : List (String × Value)) :
    (d.finish members).boolean = d.node.boolean ∧ (d.finish members).slot = d.node.slot := by
  simp only [finish, finishNullable, Node.withInferredTypes]
  split <;> split <;> try split
  all_goals exact ⟨rfl, rfl⟩

/-! ## Loading -/

/-- The subschemas of a node that is being read: loaded since the graph had a size, distinct, and
without parents. -/
structure Placed (base : Nat) (g : Graph) (n : Node) : Prop where
  boolean : n.boolean = none
  fresh : ∀ s, ∀ c ∈ n.slot s, base ≤ c ∧ c < g.size ∧ g.parent? c = none
  nodup : ∀ s, (n.slot s).Nodup
  disjoint : ∀ s s', s ≠ s' → ∀ c ∈ n.slot s, c ∉ n.slot s'

/-- What loading values does to a graph: it stays, and the values get new numbers without
parents. -/
structure ExtendsAll (g : Graph) (ids : List NodeId) (g' : Graph) : Prop where
  grows : Graph.Grows g g'
  forest : Graph.Forest g'
  fresh : ∀ c ∈ ids, g.size ≤ c ∧ c < g'.size ∧ g'.parent? c = none
  nodup : ids.Nodup

/-- What loading one value does to a graph: the value gets the last number. -/
structure Extends (g : Graph) (id : NodeId) (g' : Graph) : Prop where
  grows : Graph.Grows g g'
  forest : Graph.Forest g'
  new : g.size ≤ id
  size : g'.size = id + 1
  parent? : g'.parent? id = none

namespace Placed

variable {base : Nat} {g g' : Graph} {n n' : Node} {ids : List NodeId}

theorem empty (g : Graph) : Placed g.size g {} where
  boolean := rfl
  fresh s := by cases s <;> simp [Node.slot, OrderedMap.values]
  nodup s := by cases s <;> simp [Node.slot, OrderedMap.values]
  disjoint s := by cases s <;> simp [Node.slot, OrderedMap.values]

theorem change (h : Placed base g n) (hb : base ≤ g.size) (he : ExtendsAll g ids g')
    (hc : SlotChange n n' ids) : Placed base g' n' := by
  obtain ⟨boolean, s, hother, hmem, hnodup⟩ := hc
  have old : ∀ {s c}, c ∈ n.slot s → base ≤ c ∧ c < g'.size ∧ g'.parent? c = none := by
    intro s c hc
    obtain ⟨hbase, hlt, hp⟩ := h.fresh s c hc
    exact ⟨hbase, Nat.lt_of_lt_of_le hlt he.grows.size, (he.grows.parent? c hlt).trans hp⟩
  have new : ∀ c ∈ ids, ∀ s, c ∉ n.slot s := by
    intro c hc s hs
    exact absurd (h.fresh s c hs).2.1 (Nat.not_lt_of_le (he.fresh c hc).1)
  -- A subschema in the changed slot was there or is new, so it is in no other slot.
  have apart : ∀ s', s ≠ s' → ∀ c ∈ n'.slot s, c ∉ n'.slot s' := by
    intro s' hs' c hc
    rw [hother s' (Ne.symm hs')]
    exact (hmem c hc).elim (h.disjoint s s' hs' c) (new c · s')
  refine ⟨boolean.trans h.boolean, fun s' c hc => ?_, fun s' => ?_, fun s₁ s₂ hne c hc => ?_⟩
  · by_cases hs' : s' = s
    · subst hs'
      rcases hmem c hc with hc | hc
      · exact old hc
      · obtain ⟨hnew, hlt, hp⟩ := he.fresh c hc
        exact ⟨Nat.le_trans hb hnew, hlt, hp⟩
    · exact old (hother s' hs' ▸ hc)
  · by_cases hs' : s' = s
    · subst hs'
      exact hnodup (h.nodup s') he.nodup fun c hc => new c hc s'
    · exact hother s' hs' ▸ h.nodup s'
  · by_cases h₁ : s₁ = s
    · subst h₁
      exact apart s₂ hne c hc
    · by_cases h₂ : s₂ = s
      · subst h₂
        exact fun hc' => apart s₁ (Ne.symm hne) c hc' hc
      · rw [hother s₂ h₂]
        exact h.disjoint s₁ s₂ hne c (hother s₁ h₁ ▸ hc)

theorem subschemas_eq (h : Placed base g n) : n.subschemas = Slot.traversal.flatMap n.slot := by
  rw [Node.subschemas, h.boolean]
  rfl

theorem fresh_subschemas (h : Placed base g n) {c : NodeId} (hc : c ∈ n.subschemas) :
    base ≤ c ∧ c < g.size ∧ g.parent? c = none := by
  rw [h.subschemas_eq, List.mem_flatMap] at hc
  obtain ⟨s, -, hc⟩ := hc
  exact h.fresh s c hc

theorem nodup_subschemas (h : Placed base g n) : n.subschemas.Nodup := by
  rw [h.subschemas_eq]
  refine List.pairwise_flatMap.mpr ⟨fun s _ => h.nodup s, Slot.nodup_traversal.imp ?_⟩
  rintro s s' hne c hc c' hc' rfl
  exact h.disjoint s s' hne c hc hc'

end Placed

section

variable {R : Graph → Value → NodeId → Graph → Prop} {g g' : Graph}
  (hR : ∀ {g value id g'}, R g value id g' → g.Forest → Extends g id g')
include hR

theorem LoadsAll.extendsAll {values : List Value} {ids : List NodeId}
    (h : LoadsAll R g values ids g') (hg : g.Forest) : ExtendsAll g ids g' := by
  induction h with
  | nil => exact ⟨.refl _, hg, by simp, .nil⟩
  | @cons g g₁ g₂ value values id ids hid _ ih =>
    have first := hR hid hg
    have later := ih first.forest
    have hlt : id < g₁.size := by rw [first.size]; exact Nat.lt_succ_self id
    refine ⟨first.grows.trans later.grows, later.forest, ?_, ?_⟩
    · rw [List.forall_mem_cons]
      refine ⟨⟨first.new, Nat.lt_of_lt_of_le hlt later.grows.size,
        (later.grows.parent? id hlt).trans first.parent?⟩, fun c hc => ?_⟩
      obtain ⟨hnew, hfresh⟩ := later.fresh c hc
      exact ⟨Nat.le_trans first.grows.size hnew, hfresh⟩
    · rw [List.nodup_cons]
      exact ⟨fun hc => absurd hlt (Nat.not_lt_of_le (later.fresh id hc).1), later.nodup⟩

theorem LoadsMembers.grows {d d' : Draft} {members : List (String × Value)}
    (h : LoadsMembers R g d members d' g') (hg : g.Forest) : g.Grows g' ∧ g'.Forest := by
  induction h with
  | nil => exact ⟨.refl _, hg⟩
  | cons hids _ ih =>
    have he := hids.extendsAll hR hg
    obtain ⟨hgrows, hforest⟩ := ih he.forest
    exact ⟨he.grows.trans hgrows, hforest⟩

theorem LoadsMembers.placed {d d' : Draft} {members : List (String × Value)} {base : Nat}
    (h : LoadsMembers R g d members d' g') (hg : g.Forest) (hb : base ≤ g.size)
    (hd : Placed base g d.node) : Placed base g' d'.node := by
  induction h with
  | nil => exact hd
  | @cons g g₁ g₂ d d' key value rest ids hids _ ih =>
    have he := hids.extendsAll hR hg
    have hc := d.slotChange_read key value ((subvalues key value).refill ids)
    rw [Below.items_refill hids.length_eq] at hc
    exact ih he.forest (Nat.le_trans hb he.grows.size) (hd.change hb he hc)

theorem LoadsObject.extends {members : List (String × Value)} {id : NodeId}
    (h : LoadsObject R g members id g') (hg : g.Forest) : Extends g id g' := by
  obtain @⟨g₁, g₂, d, ids, hm, ha⟩ := h
  obtain ⟨hgrows, hforest⟩ := hm.grows hR hg
  have hd := hm.placed hR hg (Nat.le_refl _) (.empty g)
  have he := ha.extendsAll hR hforest
  have hd' := hd.change hgrows.size he (d.slotChange_readAdditional members ha.length_eq)
  obtain ⟨hboolean, hslot⟩ := (d.readAdditional members ids).slot_finish members
  have hnode : Placed g.size g₂ ((d.readAdditional members ids).finish members) :=
    hd'.change (Nat.le_trans hgrows.size he.grows.size)
      ⟨.refl _, he.forest, by simp, .nil⟩ (.of_eq hboolean hslot)
  refine ⟨(hgrows.trans he.grows).push he.forest.size_parents fun c hc => ?_,
    he.forest.push (fun c hc => ?_) (fun c hc => ?_) hnode.nodup_subschemas,
    (hgrows.trans he.grows).size, Graph.size_push _ _, ?_⟩
  · exact (hnode.fresh_subschemas hc).1
  · exact (hnode.fresh_subschemas hc).2.1
  · exact (hnode.fresh_subschemas hc).2.2
  · rw [Graph.parent?_push he.forest.size_parents, if_neg (fun hc => Nat.lt_irrefl _ hc.1)]
    exact he.forest.parent?_eq_none (Nat.le_refl _)

end

/-- Loading a value keeps the graph and its forest, and gives the value the last number. -/
theorem Loads.extends {g g' : Graph} {value : Value} {id : NodeId} (h : Loads g value id g')
    (hg : g.Forest) : Extends g id g' := by
  refine Loads.induction (motive := fun g _ id g' => g.Forest → Extends g id g') ?_ ?_ h hg
  · intro g b hg
    have hsub : (Node.ofBool b).subschemas = [] := rfl
    refine ⟨(Graph.Grows.refl g).push hg.size_parents (by simp [hsub]),
      hg.push (by simp [hsub]) (by simp [hsub]) (by simp [hsub]), Nat.le_refl _,
      Graph.size_push _ _, ?_⟩
    rw [Graph.parent?_push hg.size_parents, if_neg (fun hc => Nat.lt_irrefl _ hc.1)]
    exact hg.parent?_eq_none (Nat.le_refl _)
  · exact fun ho => ho.extends fun hl => hl.2

/-! ## Top-level schemas -/

namespace Graph

variable {g g' g₁ : Graph} {value : Value} {name : String} {id : NodeId}

/-- The graphs that successful insertions build. -/
inductive Built : Graph → Prop
  | empty : Built {}
  | insert {g g' : Graph} {value : Value} {id : NodeId} :
    Built g → g.insert value = (.ok id, g') → Built g'
  | insertNamed {g g' : Graph} {name : String} {value : Value} {id : NodeId} :
    Built g → g.insertNamed name value = (.ok id, g') → Built g'

theorem insert_eq_ok (h : g.insert value = (.ok id, g')) :
    ∃ g₁, Loads g value id g₁ ∧ g' = g₁.addRoot id := by
  rw [insert] at h
  split at h
  · rename_i id' g₁ hl
    cases h
    exact ⟨g₁, ⟨"#", hl⟩, rfl⟩
  · cases h

theorem insertNamed_eq_ok (h : g.insertNamed name value = (.ok id, g')) :
    ∃ g₁, Loads g value id g₁ ∧ g' = g₁.nameRoot name id := by
  rw [insertNamed] at h
  split at h
  · rename_i id' g₁ hl
    cases h
    exact ⟨g₁, ⟨_, hl⟩, rfl⟩
  · cases h

/-- A forest with top-level schemas that have no parents. -/
structure Rooted (g : Graph) : Prop where
  forest : Forest g
  roots : ∀ r ∈ g.roots, r < g.size ∧ g.parent? r = none

theorem nodes_addRoot (g : Graph) (id : NodeId) : (g.addRoot id).nodes = g.nodes := by
  rw [addRoot]
  split <;> rfl

theorem parents_addRoot (g : Graph) (id : NodeId) : (g.addRoot id).parents = g.parents := by
  rw [addRoot]
  split <;> rfl

theorem named_addRoot (g : Graph) (id : NodeId) : (g.addRoot id).named = g.named := by
  rw [addRoot]
  split <;> rfl

theorem root?_addRoot_ne_none (g : Graph) (id : NodeId) : (g.addRoot id).root? ≠ none := by
  rw [root?, addRoot]
  split
  next hid => simpa using List.ne_nil_of_mem (List.contains_iff_mem.mp hid)
  next => simp

theorem keeps_addRoot (g : Graph) (id : NodeId) : g.Keeps (g.addRoot id) where
  size := Nat.le_of_eq (by rw [size, size, nodes_addRoot])
  node? i _ := by rw [node?, node?, nodes_addRoot]

theorem keeps_nameRoot (g : Graph) (name : String) (id : NodeId) :
    g.Keeps (g.nameRoot name id) where
  size := (g.keeps_addRoot id).size
  node? := (g.keeps_addRoot id).node?

theorem mem_roots_addRoot {r : NodeId} (h : r ∈ (g.addRoot id).roots) : r ∈ g.roots ∨ r = id := by
  rw [addRoot] at h
  split at h
  · exact .inl h
  · exact (List.mem_append.mp h).imp_right List.mem_singleton.mp

theorem Forest.congr (h : Forest g) (hn : g'.nodes = g.nodes) (hp : g'.parents = g.parents) :
    Forest g' := by
  have hnode : ∀ i, g'.subschemas i = g.subschemas i := by
    intro i
    rw [subschemas, subschemas, node?, node?, hn]
  have hpar : ∀ i, g'.parent? i = g.parent? i := by
    intro i
    rw [parent?, parent?, hp]
  refine ⟨?_, fun hc => h.lt (hnode _ ▸ hc), fun p => hnode p ▸ h.nodup p, ?_⟩
  · rw [hp, h.size_parents, size, size, hn]
  · intro c p
    rw [hpar, hnode]
    exact h.parent?_eq_some_iff

/-- Loading a further top-level schema keeps a forest rooted. -/
theorem Rooted.add (h : Rooted g) (hl : Loads g value id g') (hn : g₁.nodes = g'.nodes)
    (hp : g₁.parents = g'.parents) (hr : ∀ r ∈ g₁.roots, r ∈ g'.roots ∨ r = id) : Rooted g₁ := by
  have he := hl.extends h.forest
  refine ⟨he.forest.congr hn hp, fun r hmem => ?_⟩
  rw [size, parent?, hn, hp]
  rcases hr r hmem with hr | rfl
  · rw [he.grows.roots] at hr
    obtain ⟨hlt, hnone⟩ := h.roots r hr
    exact ⟨Nat.lt_of_lt_of_le hlt he.grows.size, (he.grows.parent? r hlt).trans hnone⟩
  · exact ⟨Nat.lt_of_lt_of_eq (Nat.lt_succ_self r) he.size.symm, he.parent?⟩

/-- What successful insertions build is a forest with its top-level schemas at the top. -/
theorem Built.rooted (h : Built g) : Rooted g := by
  induction h with
  | empty => exact ⟨.empty, by simp⟩
  | insert _ h ih =>
    obtain ⟨g₁, hl, rfl⟩ := insert_eq_ok h
    exact ih.add hl (nodes_addRoot _ _) (parents_addRoot _ _) fun r hr => mem_roots_addRoot hr
  | insertNamed _ h ih =>
    obtain ⟨g₁, hl, rfl⟩ := insertNamed_eq_ok h
    exact ih.add hl (nodes_addRoot _ _) (parents_addRoot _ _) fun r hr => mem_roots_addRoot hr

/-- A graph with nodes has a first top-level schema. -/
theorem Built.exists_root (hb : g.Built) (hid : id < g.size) : ∃ root, g.root? = some root := by
  refine Option.ne_none_iff_exists'.mp ?_
  cases hb with
  | empty => cases hid
  | insert _ h =>
    obtain ⟨g₁, -, rfl⟩ := insert_eq_ok h
    exact root?_addRoot_ne_none g₁ _
  | insertNamed _ h =>
    obtain ⟨g₁, -, rfl⟩ := insertNamed_eq_ok h
    exact root?_addRoot_ne_none g₁ _

end Graph

end OpenApi.Schema
