import OpenApi.Proofs.Json.Value
import OpenApi.Proofs.Schema.Reread

/-!
# Reloading schemas

What is written of a loaded schema is loaded as the same schema.

* `Graph.ofValue_toValue`: it is accepted, has the same tree, and is written the same.
-/

namespace OpenApi.Schema

open Json

/-! ## Positions -/

/-- The values that stand at schema positions of a value. -/
inductive SchemaAt (v : Value) : Value → Prop
  | self : SchemaAt v v
  | member {ms : List (String × Value)} {key : String} {value u : Value} :
    SchemaAt v (.object ms) → (key, value) ∈ ms → u ∈ (subvalues key value).items → SchemaAt v u
  | furtherItems {ms : List (String × Value)} {u : Value} : SchemaAt v (.object ms) →
    listsItems ms → ("additionalItems", u) ∈ ms → isSchema u → SchemaAt v u

theorem SchemaAt.trans {v u t : Value} (h : SchemaAt v u) (h' : SchemaAt u t) : SchemaAt v t := by
  induction h' with
  | self => exact h
  | member _ hm hu ih => exact .member ih hm hu
  | furtherItems _ hl hm hs ih => exact .furtherItems ih hl hm hs

theorem distinctKeys_of_mem_below {s : Slot} {value v : Value} (h : value.DistinctKeys)
    (hv : v ∈ (s.below value).items) : v.DistinctKeys := by
  cases s with
  | child k =>
    rcases Slot.below_child k value with ⟨-, hb⟩ | ⟨items, -, rfl, hb⟩ | ⟨-, -, hb⟩
    · rw [hb] at hv
      exact List.mem_singleton.mp hv ▸ h
    · rw [hb] at hv
      exact distinctKeys_of_mem_items h hv
    · rw [hb] at hv
      cases hv
  | list k =>
    cases value with
    | array items => exact distinctKeys_of_mem_items h hv
    | _ => cases hv
  | map k =>
    cases value with
    | object members =>
      obtain ⟨m, hm, rfl⟩ := List.mem_map.mp hv
      exact distinctKeys_of_mem_members h.2 hm
    | _ => cases hv

/-- Values at schema positions have distinct keys if the whole value has. -/
theorem SchemaAt.distinctKeys {v u : Value} (h : SchemaAt v u) (hv : v.DistinctKeys) :
    u.DistinctKeys := by
  induction h with
  | self => exact hv
  | member _ hm hu ih =>
    rw [subvalues] at hu
    split at hu
    · exact distinctKeys_of_mem_below (distinctKeys_of_mem_members ih.2 hm) hu
    · cases hu
  | furtherItems _ _ hm _ ih => exact distinctKeys_of_mem_members ih.2 hm

/-! ## Trees -/

/-- The nodes hold the same, what they keep verbatim taken as maps. -/
structure Node.Agrees (n n' : Node) : Prop where
  boolean : n.boolean = n'.boolean
  text : n.text = n'.text
  types : n.types = n'.types
  typesInferred : n.typesInferred = n'.typesInferred
  enumeration : n.enumeration = n'.enumeration
  constant : n.constant = n'.constant
  number : n.number = n'.number
  bound : n.bound = n'.bound
  count : n.count = n'.count
  uniqueItems : n.uniqueItems = n'.uniqueItems
  required : n.required = n'.required
  keys : ∀ k, (n.map k).keys = (n'.map k).keys
  annotations : ∀ key, n.annotations.get? key = n'.annotations.get? key
  extensions : ∀ key, n.extensions.get? key = n'.extensions.get? key
  custom : ∀ key, n.custom.get? key = n'.custom.get? key

theorem Node.Agrees.refl (n : Node) : n.Agrees n :=
  ⟨rfl, rfl, rfl, rfl, rfl, rfl, rfl, rfl, rfl, rfl, rfl, fun _ => rfl, fun _ => rfl, fun _ => rfl,
    fun _ => rfl⟩

/-- Two nodes have the same tree: they agree, and so do their subschemas, slot by slot in order. -/
inductive SameTree (g g' : Graph) : NodeId → NodeId → Prop
  | node {id id' : NodeId} {n n' : Node} : g.node? id = some n → g'.node? id' = some n' →
    n.Agrees n' → (∀ s, List.Forall₂ (SameTree g g') (n.slot s) (n'.slot s)) →
    SameTree g g' id id'

theorem ReadsObject.agrees {S S' : Value → NodeId → Prop} {ms : List (String × Value)} {n n' : Node}
    {write : NodeId → Value} (h : ReadsObject S ms n) (hkeys : (ms.map Prod.fst).Nodup)
    (hc : Unambiguous ms) (hwrite : ∀ s, ∀ c ∈ n.slot s, isSchema (write c))
    (h' : ReadsObject S' (n.members write).entries n') : n.Agrees n' := by
  obtain ⟨hboolean, htext, hnumber, hbound, hcount, henumeration, hconstant, huniqueItems,
    hrequired⟩ := h.plain_reload hkeys hc hwrite h'
  obtain ⟨htypes, hinferred⟩ := h.types_reload hkeys hc hwrite h'
  exact {
    boolean := hboolean
    text := htext
    types := htypes.symm
    typesInferred := hinferred.symm
    enumeration := henumeration
    constant := hconstant
    number := hnumber
    bound := hbound
    count := hcount
    uniqueItems := huniqueItems
    required := hrequired
    keys := fun k => (h.map_reload hkeys hc hwrite h' k).1.symm
    annotations := fun _ => by rw [h.annotations_reload hkeys hc hwrite h']
    extensions := fun _ => by rw [h.extensions_reload hkeys hc hwrite h']
    custom := fun key => (h.get?_custom_reload hkeys hc hwrite h' key).symm }

/-! ## Reloading -/

namespace Graph

/-- What is written of a node is accepted and loaded as the same tree, which is written the same. -/
structure Reloads (g : Graph) (id : NodeId) : Prop where
  isSchema : isSchema (g.toValue id)
  accepted : Accepted (g.toValue id)
  same : ∀ {g' : Graph} {id' : NodeId}, g'.Forest → g'.Stores (g.toValue id) id' →
    SameTree g g' id id' ∧ g'.toValue id' = g.toValue id

theorem Reloads.bool {g : Graph} {id : NodeId} {b : Bool} (hn : g.node? id = some (.ofBool b)) :
    g.Reloads id := by
  have hv := toValue_ofBool hn
  refine ⟨by rw [hv]; rfl, by rw [hv]; exact accepted_bool b, fun _ hs => ?_⟩
  rw [hv] at hs ⊢
  refine ⟨.node hn hs.bool (.refl _) fun s => ?_, toValue_ofBool hs.bool⟩
  cases s <;> exact .nil

/-- A node reloads if its subschemas do. -/
theorem Reloads.object {g : Graph} (hg : g.Forest) {S : Value → NodeId → Prop} {id : NodeId}
    {ms : List (String × Value)} {n : Node} (hn : g.node? id = some n) (h : ReadsObject S ms n)
    (hkeys : (ms.map Prod.fst).Nodup) (hc : Unambiguous ms)
    (hsub : ∀ s, ∀ c ∈ n.slot s, g.Reloads c) : g.Reloads id := by
  have hwrite : ∀ s, ∀ c ∈ n.slot s, Schema.isSchema (g.toValue c) := fun s c hcs =>
    (hsub s c hcs).isSchema
  have hv := hg.toValue_eq hn (h.boolean hkeys)
  refine ⟨by rw [hv]; rfl, ?_, fun {g'} {id'} hg' hs => ?_⟩
  · rw [hv]
    refine accepted_object (fun m hm v hmv => ?_) fun g₁ d g₂ hd v hv => ?_
    · obtain ⟨s, c, hcs, rfl⟩ := h.mem_subvalues_members hkeys hc hwrite hm hmv
      exact (hsub s c hcs).accepted
    · have hlist := hd.reads_of_any.itemsWereList (n.members g.toValue).nodup
      rw [(Draft.mem_additionalItems hv).2.1] at hlist
      have hnone := h.listsItems_members hkeys hc hwrite
      rw [listsItems, ← hlist] at hnone
      cases hnone
  · rw [hv] at hs ⊢
    obtain ⟨n', hn', h'⟩ := hs.object
    have hb := h'.boolean (n.members g.toValue).nodup
    constructor
    · refine .node hn hn' (h.agrees hkeys hc hwrite h') fun s => ?_
      have hslot := List.forall₂_iff_zip.mp (h.slot_reload hkeys hc hwrite h' s)
      refine List.forall₂_iff_zip.mpr ⟨hslot.1, fun hz => ?_⟩
      exact ((hsub s _ (List.of_mem_zip hz).1).same hg' (hslot.2 hz)).1
    · rw [hg'.toValue_eq hn' hb, h.members_reload hkeys hc hwrite h' fun s c hcs c' hcc =>
        ((hsub s c hcs).same hg' hcc).2]

/-- Every stored value without repeated keys and ambiguous members reloads. -/
theorem Stores.reloads {g : Graph} (hg : g.Forest) {v : Value} {id : NodeId} (h : g.Stores v id)
    (hkeys : v.DistinctKeys) (hc : ∀ ms, SchemaAt v (.object ms) → Unambiguous ms) :
    g.Reloads id := by
  refine Stores.induction (motive := fun v id => v.DistinctKeys →
    (∀ ms, SchemaAt v (.object ms) → Unambiguous ms) → g.Reloads id) ?_ ?_ h hkeys hc
  · exact fun b id hn _ _ => .bool hn
  · intro ms id n hn hr hkeys hc
    -- Every subschema stands at a schema position of the object.
    have sub : ∀ u, SchemaAt (.object ms) u → ∀ c, g.Stores u c ∧ (u.DistinctKeys →
        (∀ ms, SchemaAt u (.object ms) → Unambiguous ms) → g.Reloads c) → g.Reloads c :=
      fun u hu c hs => hs.2 (hu.distinctKeys hkeys) fun ms' hms' => hc ms' (hu.trans hms')
    have hreloads : ReadsObject (fun _ c => g.Reloads c) ms n := by
      obtain @⟨d, ids, hd, ha⟩ := hr
      refine .mk (hd.imp fun m hm u hu => sub u (.member .self hm hu)) ?_
      rw [List.forall₂_iff_zip] at ha ⊢
      refine ⟨ha.1, fun hz => sub _ ?_ _ (ha.2 hz)⟩
      obtain ⟨hm, hlist, -, hs⟩ := Draft.mem_additionalItems (List.of_mem_zip hz).1
      exact .furtherItems .self ((hd.itemsWereList hkeys.1).symm.trans hlist) hm hs
    exact .object hg hn hr hkeys.1 (hc ms .self) hreloads.forall_slot

theorem loads_of_ofValue {v : Value} {g : Graph} (h : ofValue v = .ok g) :
    ∃ root g₁, g.root? = some root ∧ g.Rooted ∧ Loads {} v root g₁ ∧ g₁.Keeps g := by
  rw [ofValue] at h
  split at h
  · rename_i root g' hi
    cases h
    obtain ⟨g₁, hl, rfl⟩ := insert_eq_ok hi
    have hroots : g₁.roots = [] := (hl.extends .empty).grows.roots
    refine ⟨root, g₁, ?_, (Built.insert .empty hi).rooted, hl, g₁.keeps_addRoot root⟩
    simp [root?, addRoot, hroots]
  · cases h

theorem ofValue_eq_ok {v : Value} {g : Graph} (h : ofValue v = .ok g) :
    ∃ root, g.root? = some root ∧ g.Forest ∧ g.Stores v root := by
  obtain ⟨root, g₁, hroot, hrooted, hl, hkeeps⟩ := loads_of_ofValue h
  exact ⟨root, hroot, hrooted.forest, {}, g₁, .empty, hl, hkeeps⟩

theorem exists_stores_of_isOk {v : Value} (h : (ofValue v).isOk) :
    ∃ g root, ofValue v = .ok g ∧ g.root? = some root ∧ g.Stores v root := by
  obtain ⟨g, hg⟩ := exists_of_isOk h
  obtain ⟨root, hroot, -, hs⟩ := ofValue_eq_ok hg
  exact ⟨g, root, hg, hroot, hs⟩

theorem ofValue_of_accepted {v : Value} (h : Accepted v) : ∃ g, ofValue v = .ok g := by
  obtain ⟨id, g, hl⟩ := h "#" {}
  refine ⟨g.addRoot id, ?_⟩
  have hi : Graph.insert {} v = (.ok id, g.addRoot id) := by
    rw [insert, show load "#" v {} = (.ok id, g) from hl]
  rw [ofValue, hi]

/-- What is written of a loaded schema is loaded as the same schema and written the same. -/
theorem ofValue_toValue {v : Value} {g : Graph} (hkeys : v.DistinctKeys)
    (hc : ∀ ms, SchemaAt v (.object ms) → Unambiguous ms) (hg : ofValue v = .ok g) :
    ∃ root g' root', g.root? = some root ∧ ofValue (g.toValue root) = .ok g' ∧
      g'.root? = some root' ∧ SameTree g g' root root' ∧ g'.toValue root' = g.toValue root := by
  obtain ⟨root, hroot, hforest, hs⟩ := ofValue_eq_ok hg
  have hr := hs.reloads hforest hkeys hc
  obtain ⟨g', hg'⟩ := ofValue_of_accepted hr.accepted
  obtain ⟨root', hroot', hforest', hs'⟩ := ofValue_eq_ok hg'
  obtain ⟨htree, hv⟩ := hr.same hforest' hs'
  exact ⟨root, g', root', hroot, hg', hroot', htree, hv⟩

/-- The item that `legacyMembers` lists. -/
def legacyItem : List (String × Value) := [("type", .string "integer"), ("nullable", .bool true)]

/-- A schema with older forms, a `nullable` that is no boolean and a count that is no number. -/
def legacyMembers : List (String × Value) :=
  [("items", .array [.object legacyItem]), ("additionalItems", .bool false),
    ("definitions", .object [("a", .bool true)]), ("nullable", .string "x"),
    ("minLength", .string "y")]

theorem schemaAt_legacy {u : Value} (h : SchemaAt (.object legacyMembers) u) :
    u = .object legacyMembers ∨ u = .object legacyItem ∨ ∃ b, u = .bool b := by
  induction h with
  | self => exact .inl rfl
  | @member ms key value u _ hm hu ih =>
    rcases ih with h | h | ⟨b, h⟩
    · cases h
      have hsub : ∀ m ∈ legacyMembers, (subvalues m.1 m.2).items = [.object legacyItem] ∨
          (subvalues m.1 m.2).items = [.bool true] ∨ (subvalues m.1 m.2).items = [] := by
        intro m hm
        simp only [legacyMembers, List.mem_cons, List.not_mem_nil, or_false] at hm
        rcases hm with rfl | rfl | rfl | rfl | rfl
        · exact .inl rfl
        · exact .inr (.inr rfl)
        · exact .inr (.inl rfl)
        · exact .inr (.inr rfl)
        · exact .inr (.inr rfl)
      rcases hsub _ hm with h | h | h <;> rw [h] at hu
      · exact .inr (.inl (List.mem_singleton.mp hu))
      · exact .inr (.inr ⟨true, List.mem_singleton.mp hu⟩)
      · cases hu
    · cases h
      have hsub : ∀ m ∈ legacyItem, (subvalues m.1 m.2).items = [] := by
        intro m hm
        simp only [legacyItem, List.mem_cons, List.not_mem_nil, or_false] at hm
        rcases hm with rfl | rfl <;> rfl
      rw [hsub _ hm] at hu
      cases hu
    · cases h
  | @furtherItems ms u _ _ hm _ ih =>
    rcases ih with h | h | ⟨b, h⟩
    · cases h
      have hu : u = .bool false := by simpa [legacyMembers] using hm
      exact .inr (.inr ⟨false, hu⟩)
    · cases h
      simp [legacyItem] at hm
    · cases h

theorem ofValue_toValue_legacy : ∃ g, ofValue (.object legacyMembers) = .ok g ∧
    ∃ root g' root', g.root? = some root ∧ ofValue (g.toValue root) = .ok g' ∧
      g'.root? = some root' ∧ SameTree g g' root root' ∧ g'.toValue root' = g.toValue root := by
  have hok : (ofValue (.object legacyMembers)).isOk = true := by decide +kernel
  obtain ⟨g, hg⟩ := exists_of_isOk hok
  refine ⟨g, hg, ofValue_toValue ?_ (fun ms h => ?_) hg⟩
  · simp [Value.DistinctKeys, Value.DistinctKeysMembers, Value.DistinctKeysList, legacyMembers,
      legacyItem]
  · rcases schemaAt_legacy h with h | h | ⟨b, h⟩
    · cases h
      exact ⟨.inl rfl, .inl rfl⟩
    · cases h
      exact ⟨.inl rfl, .inl rfl⟩
    · cases h

end Graph

end OpenApi.Schema
