import OpenApi.Proofs.Schema.Lineage
import OpenApi.Proofs.Schema.Location
import OpenApi.Proofs.Schema.Pointer
import OpenApi.Proofs.Schema.Renumbering
import OpenApi.Proofs.Schema.ValueTypes

/-!
# The order of components

Components that are declared in another order get other numbers. Their types stay, as long as every
reference is a pointer from a component.

* `Graph.Components`: what a graph holds after some components were loaded;
* `Graph.Counterpart`: nodes that stand at the same place of the same component in two graphs;
* `Classifier.Mirrored.types_eq`: classifiers over nodes that correspond one to one, cycles
  included;
* `Graph.types_of_perm`: the types and shapes of components in another order.
-/

namespace OpenApi.Schema

open Json

/-! ## Subschemas of nodes -/

namespace Node

variable {node : Node} {c : NodeId}

theorem mem_slot_of_at? {s : Slot} {token : Option String} (h : node.at? s token = some c) :
    c ∈ node.slot s := by
  cases s with
  | child k =>
    cases token with
    | none => exact Option.mem_toList.mpr h
    | some => cases h
  | list k =>
    cases token with
    | none => cases h
    | some token =>
      obtain ⟨i, -, hi⟩ := Option.bind_eq_some_iff.mp h
      exact List.mem_of_getElem? hi
  | map k =>
    cases token with
    | none => cases h
    | some name => exact OrderedMap.mem_values_of_get? h

theorem at?_renumber (f : NodeId → NodeId) (node : Node) (s : Slot) (token : Option String) :
    (node.renumber f).at? s token = (node.at? s token).map f := by
  cases s with
  | child k => cases token <;> rfl
  | list k =>
    cases token with
    | none => rfl
    | some token =>
      simp only [at?, renumber]
      cases Graph.position? token <;> simp
  | map k =>
    cases token with
    | none => rfl
    | some name => exact OrderedMap.get?_mapValues f _ name

theorem mem_subschemas_renumber (f : NodeId → NodeId) (h : c ∈ node.subschemas) :
    f c ∈ (node.renumber f).subschemas := by
  have hboolean : (node.renumber f).boolean = node.boolean := rfl
  simp only [subschemas, hboolean] at h ⊢
  split at h
  next => cases h
  next hb =>
    rw [if_neg hb]
    obtain ⟨s, hs, hcs⟩ := List.mem_flatMap.mp h
    refine List.mem_flatMap.mpr ⟨s, hs, ?_⟩
    rw [slot_renumber]
    exact List.mem_map_of_mem hcs

end Node

/-! ## Objects are no booleans -/

section

variable {R : Graph → Value → NodeId → Graph → Prop} {P : Graph → Prop} {g g' : Graph}
  (hR : ∀ {g value id g'}, R g value id g' → P g → P g')
include hR

theorem LoadsAll.preserves {values : List Value} {ids : List NodeId}
    (h : LoadsAll R g values ids g') (hg : P g) : P g' := by
  induction h with
  | nil => exact hg
  | cons hid _ ih => exact ih (hR hid hg)

theorem LoadsMembers.preserves {d d' : Draft} {members : List (String × Value)}
    (h : LoadsMembers R g d members d' g') (hg : P g) : P g' := by
  induction h with
  | nil => exact hg
  | cons hids _ ih => exact ih (hids.preserves hR hg)

end

/-- An object becomes a node that is no boolean, whatever its keys. -/
theorem ReadsObject.not_boolean {S : Value → NodeId → Prop} {ms : List (String × Value)} {n : Node}
    (h : ReadsObject S ms n) : n.boolean = none := by
  obtain @⟨d, ids, hd, ha⟩ := h
  rw [((d.readAdditional ms ids).slot_finish ms).1,
    (d.slotChange_readAdditional ms ha.length_eq.symm).boolean]
  exact hd.boolean

namespace Graph

variable {g g' : Graph} {id c n p r : NodeId} {node : Node} {value : Value}

/-- Every subschema in a slot counts as one: booleans have no filled slots. -/
def Whole (g : Graph) : Prop :=
  ∀ id node, g.node? id = some node → ∀ s, ∀ c ∈ node.slot s, c ∈ node.subschemas

theorem Whole.push (h : g.Whole) (hnode : ∀ s, ∀ c ∈ node.slot s, c ∈ node.subschemas) :
    (g.push node).2.Whole := by
  intro id node' hid
  rw [node?_push] at hid
  split at hid
  · cases hid
    exact hnode
  · exact h id node' hid

theorem Whole.mem_subschemas (h : g.Whole) (hn : g.node? n = some node) {s : Slot}
    (hc : c ∈ node.slot s) : c ∈ g.subschemas n := by
  rw [subschemas, hn]
  exact h n node hn s c hc

theorem whole_of_loads (h : Loads g value id g') (hg : g.Whole) : g'.Whole := by
  refine Loads.induction (motive := fun g _ _ g' => g.Whole → g'.Whole) ?_ ?_ h hg
  · intro g b hg
    refine hg.push fun s c hc => ?_
    cases s <;> cases hc
  · intro g members id g' ho hg
    obtain @⟨g₁, g₂, d, ids, hm, ha⟩ := ho
    have hg₁ : g₁.Whole := hm.preserves (fun h => h.2) hg
    have hg₂ : g₂.Whole := ha.preserves (fun h => h.2) hg₁
    have hread : ReadsObject (fun _ _ => True) members
        ((d.readAdditional members ids).finish members) :=
      .mk hm.reads_of_any (List.forall₂_iff_zip.mpr ⟨ha.length_eq.symm, fun _ => trivial⟩)
    refine hg₂.push fun s c hc => ?_
    rw [Node.subschemas, hread.not_boolean]
    exact List.mem_flatMap.mpr ⟨s, s.mem_traversal, hc⟩

/-! ## The nodes of a stored value -/

/-- What is reached from a loaded value was loaded with it. -/
theorem le_of_reaches {g₁ g₂ : Graph} {r n : Nat} (hf : g₁.Forest) (hl : Loads g₁ value r g₂)
    (hk : g₂.Keeps g) (h : g.Reaches r n) : g₁.size ≤ n ∧ n ≤ r := by
  have he := hl.extends hf
  induction h with
  | refl => exact ⟨he.new, Nat.le_refl r⟩
  | @step p c _ hc ih =>
    obtain ⟨hlow, hhigh⟩ := ih
    have hp : p < g₂.size := by rw [he.size]; exact Nat.lt_succ_of_le hhigh
    have hc' : c ∈ g₂.subschemas p := by
      rw [subschemas, hk.node? p hp] at hc
      exact hc
    refine ⟨Nat.le_of_not_lt fun hlt => ?_, Nat.le_trans (Nat.le_of_lt (he.forest.lt hc')) hhigh⟩
    -- An older node would have kept its parent, which is older as well.
    have hparent := he.forest.parent?_eq_some_iff.mpr hc'
    rw [he.grows.parent? c hlt, hf.parent?_eq_some_iff] at hparent
    exact Nat.not_lt_of_le hlow (lt_size_of_mem_subschemas hparent)

/-- Two nodes without parents that reach the same node are one. -/
theorem Reaches.eq_of_tops {r r' : NodeId} (hf : g.Forest) (h : g.Reaches r n)
    (h' : g.Reaches r' n) (hr : g.parent? r = none) (hr' : g.parent? r' = none) : r = r' := by
  obtain hrr | hrr := h.comparable hf h'
  · exact hrr.eq_of_parent? hf hr'
  · exact (hrr.eq_of_parent? hf hr).symm

/-- A pointer that leads somewhere leads there through a subschema, or ends. -/
theorem exists_at?_of_walkPointer {word : String} {rest : List String} {t : NodeId}
    (h : g.walkPointer id (word :: rest) = some t) :
    ∃ node s token c rest', g.node? id = some node ∧ Slot.ofWord? word = some s ∧
      node.at? s token = some c ∧ rest = token.toList ++ rest' ∧
      g.walkPointer c rest' = some t := by
  rw [walkPointer.eq_def] at h
  dsimp only at h
  split at h
  next node k hn hs =>
    split at h
    next c hc => exact ⟨node, _, none, c, rest, hn, hs, hc, rfl, h⟩
    next => cases h
  next node k hn hs =>
    cases rest with
    | nil => cases h
    | cons segment rest =>
      dsimp only at h
      split at h
      next c hc => exact ⟨node, _, some segment, c, rest, hn, hs, hc, rfl, h⟩
      next => cases h
  next node k hn hs =>
    cases rest with
    | nil => cases h
    | cons key rest =>
      dsimp only at h
      split at h
      next c hc => exact ⟨node, _, some key, c, rest, hn, hs, hc, rfl, h⟩
      next => cases h
  next => cases h

/-! ## Graphs of components -/

/-- A graph into which components were loaded: their names stand for different top-level schemas,
which store their values. -/
structure Components (g : Graph) (entries : List (String × Value)) : Prop where
  rooted : g.Rooted
  whole : g.Whole
  stores : ∀ name value, (name, value) ∈ entries →
    ∃ r, g.named.get? name = some r ∧ g.Stores value r
  component : ∀ name r, g.named.get? name = some r →
    r ∈ g.roots ∧ ∃ value, (name, value) ∈ entries
  injective : ∀ name name' r, g.named.get? name = some r → g.named.get? name' = some r →
    name = name'

theorem Components.empty : Components {} [] where
  rooted := ⟨.empty, by simp⟩
  whole id node h := by simp [node?] at h
  stores := by simp
  component name r h := by cases h
  injective name name' r h := by cases h

theorem subset_roots_addRoot (g : Graph) (id : NodeId) :
    id ∈ (g.addRoot id).roots ∧ ∀ r ∈ g.roots, r ∈ (g.addRoot id).roots := by
  rw [addRoot]
  split
  next hid => exact ⟨List.contains_iff_mem.mp hid, fun r hr => hr⟩
  next => simp +contextual

/-- Loading a component under a new name. -/
theorem Components.insertNamed {entries : List (String × Value)} {name : String}
    (h : g.Components entries) (hname : name ∉ entries.map Prod.fst)
    (hi : g.insertNamed name value = (.ok id, g')) :
    g'.Components (entries ++ [(name, value)]) := by
  obtain ⟨g₁, hl, rfl⟩ := insertNamed_eq_ok hi
  have he := hl.extends h.rooted.forest
  have hkeeps : g.Keeps (g₁.nameRoot name id) := he.grows.toKeeps.trans (g₁.keeps_nameRoot name id)
  obtain ⟨hroot, hroots⟩ := g₁.subset_roots_addRoot id
  have hget : ∀ other, (g₁.nameRoot name id).named.get? other =
      if name = other then some id else g.named.get? other := by
    intro other
    have hnamed : (g₁.addRoot id).named = g.named := (named_addRoot g₁ id).trans he.grows.named
    rw [nameRoot, OrderedMap.get?_insert, hnamed]
  have hold : ∀ {other r}, g.named.get? other = some r → r < g.size := fun hr =>
    (h.rooted.roots _ (h.component _ _ hr).1).1
  refine ⟨h.rooted.add hl (nodes_addRoot _ _) (parents_addRoot _ _) fun r hr =>
    mem_roots_addRoot hr, ?_, ?_, ?_, ?_⟩
  · intro i node hi
    rw [node?, nameRoot, nodes_addRoot] at hi
    exact whole_of_loads hl h.whole i node hi
  · intro other v hv
    rw [List.mem_append, List.mem_singleton] at hv
    rcases hv with hv | hv
    · obtain ⟨r, hr, g₂, g₃, hf, hl', hk⟩ := h.stores other v hv
      have hne : name ≠ other := fun hc => hname (hc ▸ List.mem_map_of_mem hv)
      exact ⟨r, by rw [hget, if_neg hne, hr], g₂, g₃, hf, hl', hk.trans hkeeps⟩
    · cases hv
      exact ⟨id, by rw [hget, if_pos rfl], g, g₁, h.rooted.forest, hl, g₁.keeps_nameRoot name id⟩
  · intro other r hr
    rw [hget] at hr
    split at hr
    next hc =>
      cases hr
      exact ⟨hroot, value, by simp [hc]⟩
    next =>
      obtain ⟨hmem, v, hv⟩ := h.component other r hr
      exact ⟨hroots r (he.grows.roots.symm ▸ hmem), v, List.mem_append_left _ hv⟩
  · intro one other r hone hother
    rw [hget] at hone hother
    split at hone <;> split at hother
    next h₁ h₂ => exact h₁.symm.trans h₂
    next =>
      cases hone
      exact absurd (hold hother) (Nat.not_lt_of_le he.new)
    next =>
      cases hother
      exact absurd (hold hone) (Nat.not_lt_of_le he.new)
    next => exact h.injective one other r hone hother

/-- Loading components under distinct names. -/
theorem Components.insertAllNamed {before entries : List (String × Value)}
    (h : g.Components before) (hkeys : ((before ++ entries).map Prod.fst).Nodup)
    (hi : g.insertAllNamed entries = .ok g') : g'.Components (before ++ entries) := by
  induction entries generalizing g before with
  | nil =>
    cases hi
    rwa [List.append_nil]
  | cons e entries ih =>
    obtain ⟨name, value⟩ := e
    rw [Graph.insertAllNamed] at hi
    split at hi
    next id g₁ hinsert =>
      have hname : name ∉ before.map Prod.fst := by
        intro hmem
        rw [List.map_append, List.nodup_append] at hkeys
        exact hkeys.2.2 name hmem name (by simp) rfl
      have hrest := ih (h.insertNamed hname hinsert) (by simpa using hkeys) hi
      rwa [List.append_assoc, List.singleton_append] at hrest
    next => cases hi

/-- Components whose values are accepted are loaded. -/
theorem exists_insertAllNamed {entries : List (String × Value)}
    (h : ∀ e ∈ entries, Accepted e.2) (g : Graph) : ∃ g', g.insertAllNamed entries = .ok g' := by
  induction entries generalizing g with
  | nil => exact ⟨g, rfl⟩
  | cons e entries ih =>
    obtain ⟨name, value⟩ := e
    rw [List.forall_mem_cons] at h
    obtain ⟨id, g₁, hl⟩ := h.1 (componentPointer name) g
    have hi : g.insertNamed name value = (.ok id, g₁.nameRoot name id) := by
      rw [insertNamed, show load (componentPointer name) value g = (.ok id, g₁) from hl]
    rw [Graph.insertAllNamed, hi]
    exact ih h.2 _

/-! ## Nodes at the same place -/

/-- Two nodes stand at the same place of the same component: below its schema in both graphs, and as
many numbers before it. -/
def Counterpart (g g' : Graph) (n n' : Nat) : Prop :=
  ∃ (name : String) (r r' : Nat), g.named.get? name = some r ∧ g'.named.get? name = some r' ∧
    g.Reaches r n ∧ g'.Reaches r' n' ∧ n + r' = n' + r

theorem Counterpart.symm {n n' : Nat} (h : g.Counterpart g' n n') : g'.Counterpart g n' n := by
  obtain ⟨name, r, r', hr, hr', hn, hn', heq⟩ := h
  exact ⟨name, r', r, hr', hr, hn', hn, heq.symm⟩

section

variable {entries entries' : List (String × Value)} {n n' m' r t : Nat}
  (hg : g.Components entries) (hg' : g'.Components entries')
  (hperm : entries'.Perm entries)

include hg in
/-- A node is reached from the schema of one component at most. -/
theorem Counterpart.functional (h : g.Counterpart g' n n') (h' : g.Counterpart g' n m') :
    n' = m' := by
  obtain ⟨name, r, r', hr, hr', hn, -, heq⟩ := h
  obtain ⟨name₂, r₂, r₂', hr₂, hr₂', hn₂, -, heq₂⟩ := h'
  have htop : ∀ {name r}, g.named.get? name = some r → g.parent? r = none := fun hr =>
    (hg.rooted.roots _ (hg.component _ _ hr).1).2
  obtain rfl := hn.eq_of_tops hg.rooted.forest hn₂ (htop hr) (htop hr₂)
  obtain rfl := hg.injective _ _ _ hr hr₂
  cases hr'.symm.trans hr₂'
  omega

include hg hg' hperm

/-- The schemas of a component are counterparts. -/
theorem counterpart_named {name : String} (hr : g.named.get? name = some r) :
    ∃ r', g'.named.get? name = some r' ∧ g.Counterpart g' r r' := by
  obtain ⟨-, value, hmem⟩ := hg.component name r hr
  obtain ⟨r', hr', -⟩ := hg'.stores name value (hperm.mem_iff.mpr hmem)
  exact ⟨r', hr', name, r, r', hr, hr', .refl, .refl, Nat.add_comm r r'⟩

/-- Counterparts hold the same, and their subschemas are counterparts in turn. -/
theorem Counterpart.exists_renumber (h : g.Counterpart g' n n') : ∃ f : NodeId → NodeId,
    g'.node? n' = (g.node? n).map (Node.renumber f) ∧
      ∀ c ∈ g.subschemas n, g.Counterpart g' c (f c) := by
  obtain ⟨name, r, r', hr, hr', hn, hn', heq⟩ := h
  obtain ⟨-, value, hmem⟩ := hg.component name r hr
  obtain ⟨_, hroot, g₁, g₂, hf, hl, hk⟩ := hg.stores name value hmem
  cases hr.symm.trans hroot
  obtain ⟨_, hroot', g₁', g₂', hf', hl', hk'⟩ :=
    hg'.stores name value (hperm.mem_iff.mpr hmem)
  cases hr'.symm.trans hroot'
  obtain ⟨hcopies, hmoved⟩ := hl.copies hl'
  have he := hl.extends hf
  have he' := hl'.extends hf'
  -- The numbers of both nodes, counted from where the value was loaded.
  have place : ∀ {c : Nat}, g.Reaches r c → ∃ k, c = g₁.size + k ∧ k + g₁.size ≤ r := by
    intro c hc
    obtain ⟨hlow, hhigh⟩ := le_of_reaches hf hl hk hc
    exact ⟨c - g₁.size, by omega, by omega⟩
  obtain ⟨m, hm, -⟩ := place .refl
  have hm' : r' = g₁'.size + m := by rw [hmoved, hm, moved_add]
  obtain ⟨k, hk₁, hle⟩ := place hn
  have hk₂ : n' = g₁'.size + k := by omega
  have hnode : g'.node? n' = (g.node? n).map (Node.renumber (moved g₁.size g₁'.size)) := by
    rw [hk.node? n (by rw [he.size]; omega), hk'.node? n' (by rw [he'.size]; omega), hk₁, hk₂]
    exact hcopies.node? k
  refine ⟨_, hnode, fun c hc => ?_⟩
  have hc' : moved g₁.size g₁'.size c ∈ g'.subschemas n' := by
    rw [subschemas] at hc ⊢
    rw [hnode]
    cases hnode' : g.node? n with
    | none =>
      rw [hnode'] at hc
      cases hc
    | some node =>
      rw [hnode'] at hc
      rw [Option.map_some]
      show _ ∈ (node.renumber _).subschemas
      exact Node.mem_subschemas_renumber _ hc
  obtain ⟨j, hj, -⟩ := place (hn.step hc)
  rw [hj, moved_add] at hc' ⊢
  exact ⟨name, r, r', hr, hr', hj ▸ hn.step hc, hn'.step hc', by omega⟩

/-- A pointer leads from counterparts to counterparts. -/
theorem Counterpart.walkPointer {segments : List String} (h : g.Counterpart g' n n')
    (ht : g.walkPointer n segments = some t) :
    ∃ t', g'.walkPointer n' segments = some t' ∧ g.Counterpart g' t t' := by
  induction hlength : segments.length using Nat.strongRecOn generalizing n n' segments with
  | ind length ih =>
    subst hlength
    cases segments with
    | nil =>
      rw [Graph.walkPointer] at ht
      cases ht
      exact ⟨n', by rw [Graph.walkPointer], h⟩
    | cons word rest =>
      obtain ⟨node, s, token, c, rest, hnode, hs, hc, rfl, hrest⟩ := exists_at?_of_walkPointer ht
      obtain ⟨f, hnode', hsub⟩ := h.exists_renumber hg hg' hperm
      rw [hnode] at hnode'
      have hc' : (node.renumber f).at? s token = some (f c) := by rw [Node.at?_renumber, hc]; rfl
      rw [walkPointer_cons hnode' hs hc']
      refine ih rest.length ?_ (hsub c (hg.whole.mem_subschemas hnode (Node.mem_slot_of_at? hc)))
        hrest rfl
      rw [List.length_cons, List.length_append]
      omega

end

/-! ## Pointers from components -/

/-- A reference is a pointer from a component: its name, and the segments that follow it,
decoded. -/
def ComponentPointer (reference name : String) (rest : List String) : Prop :=
  ∃ pointer : String, Text.trim reference = "#/" ++ pointer ∧
    (Text.splitOn '/' pointer.toList).map (fun s => Reference.decodeSegment (String.ofList s)) =
      "components" :: "schemas" :: name :: rest

/-- A pointer that leads through the keywords of a component is followed from everywhere. -/
theorem resolve_of_componentPointer {reference name : String} {rest : List String} {t : NodeId}
    (h : ComponentPointer reference name rest) (hid : g.named.get? name = some id)
    (ht : g.walkPointer id rest = some t) (n : NodeId) : g.resolve (some n) reference = some t := by
  obtain ⟨pointer, htrim, hsegments⟩ := h
  have hcut : Reference.splitFragment ("#/" ++ pointer) = ("", some ("/" ++ pointer)) := by
    have hhash : "#/" ++ pointer = "#" ++ ("/" ++ pointer) := by
      rw [← String.append_assoc]
      rfl
    rw [hhash]
    exact Reference.splitFragment_hash _
  have hfragment : ∀ base, g.resolveFragment base ("/" ++ pointer) = some t := by
    intro base
    have hchars : ("/" ++ pointer).toList = '/' :: pointer.toList := by
      rw [String.toList_append]
      rfl
    rw [resolveFragment, hchars]
    cases hp : pointer.toList with
    | nil =>
      rw [hp] at hsegments
      have hlength := congrArg List.length hsegments
      simp [Text.splitOn] at hlength
    | cons c cs =>
      rw [hp] at hsegments
      simp only [hsegments, hid, Option.bind_some, ht]
  rw [resolve, htrim, locate, hcut]
  simp [hfragment]

end Graph

/-! ## Classifiers over paired nodes -/

namespace Classifier

/-- A relation pairs nodes of two classifiers one to one, and paired nodes have their types from
paired nodes in the same way. -/
structure Mirrored (c c' : Classifier) (R : NodeId → NodeId → Prop) : Prop where
  functional : ∀ {n n' m'}, R n n' → R n m' → n' = m'
  injective : ∀ {n m n'}, R n n' → R m n' → n = m
  combine_eq : ∀ {n n'}, R n n' → ∀ {types types' : NodeId → TypeSet},
    (∀ t t', c.Edge n t → c'.Edge n' t' → R t t' → types t = types' t') →
      c.combine types n = c'.combine types' n'

namespace Mirrored

variable {c c' : Classifier} {R : NodeId → NodeId → Prop} {path path' : List NodeId} {n n' : NodeId}
  {fuel fuel' : Nat}

theorem mem_iff (h : Mirrored c c' R) (hpath : List.Forall₂ R path path') (hn : R n n') :
    n ∈ path ↔ n' ∈ path' := by
  induction hpath with
  | nil => simp
  | @cons m m' path path' hm _ ih =>
    rw [List.mem_cons, List.mem_cons, ih]
    refine or_congr_left ⟨?_, ?_⟩
    · rintro rfl
      exact h.functional hn hm
    · rintro rfl
      exact h.injective hn hm

/-- The guards give up at paired nodes, so that paired nodes below paired ones have the same
types. -/
theorem typesBelow_eq (h : Mirrored c c' R) (hfuel : c.unvisited path < fuel)
    (hfuel' : c'.unvisited path' < fuel') (hpath : List.Forall₂ R path path') (hn : R n n') :
    c.typesBelow fuel path n = c'.typesBelow fuel' path' n' := by
  induction fuel generalizing fuel' path path' n n' with
  | zero => omega
  | succ fuel ih =>
    obtain ⟨fuel', rfl⟩ : ∃ k, fuel' = k + 1 := ⟨fuel' - 1, by omega⟩
    rw [typesBelow_succ, typesBelow_succ]
    by_cases hmem : n ∈ path
    · rw [if_pos hmem, if_pos ((h.mem_iff hpath hn).mp hmem)]
    · have hmem' : n' ∉ path' := fun hc => hmem ((h.mem_iff hpath hn).mpr hc)
      rw [if_neg hmem, if_neg hmem']
      exact h.combine_eq hn fun t t' ht ht' htt => ih (unvisited_step ht hmem hfuel)
        (unvisited_step ht' hmem' hfuel') (.cons hn hpath) htt

theorem types_eq (h : Mirrored c c' R) (hn : R n n') : c.types n = c'.types n' :=
  h.typesBelow_eq c.unvisited_nil_lt c'.unvisited_nil_lt .nil hn

end Mirrored

theorem branches_renumber (f : NodeId → NodeId) (node : Node) :
    branches (node.renumber f) = (branches node).map f := by
  simp only [branches, List.map_append]
  rfl

/-- Nodes that hold the same are combined in the same way. -/
theorem combine_renumber {c c' : Classifier} {R : NodeId → NodeId → Prop} {n n' : NodeId}
    {node : Node} {f : NodeId → NodeId} (hnode : c.graph.node? n = some node)
    (hnode' : c'.graph.node? n' = some (node.renumber f))
    (hbranches : node.meaning = .inline → ∀ b ∈ branches node, R b (f b))
    (htarget : node.isReference = true →
      ∃ t t', c.target? n = some t ∧ c'.target? n' = some t' ∧ R t t')
    {types types' : NodeId → TypeSet}
    (h : ∀ t t', c.Edge n t → c'.Edge n' t' → R t t' → types t = types' t') :
    c.combine types n = c'.combine types' n' := by
  have hmeaning : (node.renumber f).meaning = node.meaning := rfl
  cases hm : node.meaning with
  | boolean =>
    rw [combine_boolean hnode hm, combine_boolean hnode' (hmeaning.trans hm)]
  | inline =>
    cases he : node.types.isEmpty with
    | false => rw [combine_typed hnode hm he, combine_typed hnode' (hmeaning.trans hm) he]; rfl
    | true =>
      rw [combine_untyped hnode hm he, combine_untyped hnode' (hmeaning.trans hm) he,
        branches_renumber, List.map_map]
      refine congrArg unionOfKnown (List.map_congr_left fun b hb => ?_)
      refine h b (f b) (edge_of_mem_branches hnode hm he hb)
        (edge_of_mem_branches hnode' (hmeaning.trans hm) he ?_) (hbranches hm b hb)
      rw [branches_renumber]
      exact List.mem_map_of_mem hb
  | reference | dynamicReference =>
    have hr : node.isReference = true := by rw [Node.isReference, hm]
    have hr' : (node.renumber f).isReference = true := by rw [Node.isReference, hmeaning, hm]
    obtain ⟨t, t', ht, ht', htt⟩ := htarget hr
    have htypes := h t t' (edge_of_target? ht) (edge_of_target? ht') htt
    rw [combine_reference hnode hr, combine_reference hnode' hr', ht, ht', Option.map_some,
      Option.map_some, htypes]
    rfl

end Classifier

namespace Graph

variable {g g' : Graph} {entries entries' : List (String × Value)}

/-- Every reference of the graph is a pointer that leads from a component through its keywords, and
none is dynamic. -/
structure PointsToComponents (g : Graph) : Prop where
  static : ∀ id node, g.node? id = some node → node.text .dynamicRef = none
  pointer : ∀ id node reference, g.node? id = some node → node.text .ref = some reference →
    ∃ name rest root t, ComponentPointer reference name rest ∧ g.named.get? name = some root ∧
      g.walkPointer root rest = some t

/-- Classifiers over components in two orders mirror each other. -/
theorem mirrored_of_perm (hg : g.Components entries) (hg' : g'.Components entries')
    (hperm : entries'.Perm entries) (hpoints : g.PointsToComponents)
    (scope scope' : Option DynamicScope) :
    Classifier.Mirrored { graph := g, scope } { graph := g', scope := scope' }
      (g.Counterpart g') where
  functional h h' := h.functional hg h'
  injective h h' := h.symm.functional hg' h'.symm
  combine_eq {n n'} h types types' htypes := by
    obtain ⟨f, hnode', hsub⟩ := h.exists_renumber hg hg' hperm
    cases hnode : g.node? n with
    | none =>
      rw [hnode] at hnode'
      simp [Classifier.combine, hnode, hnode']
    | some node =>
      rw [hnode] at hnode'
      refine Classifier.combine_renumber hnode hnode' (fun _ b hb => ?_) (fun hr => ?_) htypes
      · have hslot : ∃ k, b ∈ node.slot (.list k) := by
          simp only [Classifier.branches, List.mem_append] at hb
          obtain (hb | hb) | hb := hb <;> exact ⟨_, hb⟩
        obtain ⟨k, hslot⟩ := hslot
        exact hsub b (hg.whole.mem_subschemas hnode hslot)
      · obtain ⟨reference, hm⟩ : ∃ reference, node.meaning = .reference reference := by
          have hstatic := hpoints.static n node hnode
          rw [Node.isReference, Node.meaning, hstatic] at hr
          rw [Node.meaning, hstatic]
          cases hb : node.boolean <;> cases ht : node.text .ref <;> simp_all
        have href : node.text .ref = some reference := by
          rw [Node.meaning] at hm
          split at hm <;> simp_all
        obtain ⟨name, rest, root, t, hpointer, hroot, ht⟩ :=
          hpoints.pointer n node reference hnode href
        obtain ⟨root', hroot', hroots⟩ := counterpart_named hg hg' hperm hroot
        obtain ⟨t', ht', htt⟩ := hroots.walkPointer hg hg' hperm ht
        refine ⟨t, t', ?_, ?_, htt⟩
        · rw [Classifier.target?, hnode, Option.map_some, hm]
          exact resolve_of_componentPointer hpointer hroot ht n
        · rw [Classifier.target?, hnode', Option.map_some, Option.map_some,
            show (node.renumber f).meaning = .reference reference from hm]
          exact resolve_of_componentPointer hpointer hroot' ht' n'

/-- Components that are loaded, with references that are pointers from components, are loaded in
every other order, and every component has the same types and the same shape then, whatever the
scopes. -/
theorem types_of_perm (hkeys : (entries.map Prod.fst).Nodup) (hg : ofNamedValues entries = .ok g)
    (hpoints : g.PointsToComponents) (hperm : entries'.Perm entries) :
    ∃ g', ofNamedValues entries' = .ok g' ∧
      ∀ name ∈ entries.map Prod.fst, ∃ id id', g.named.get? name = some id ∧
        g'.named.get? name = some id' ∧ ∀ scope scope' : Option DynamicScope,
          Classifier.types { graph := g, scope } id =
            Classifier.types { graph := g', scope := scope' } id' ∧
          Classifier.shape { graph := g, scope } id =
            Classifier.shape { graph := g', scope := scope' } id' := by
  have hcomponents : g.Components entries := Components.empty.insertAllNamed hkeys hg
  have haccepted : ∀ e ∈ entries', Accepted e.2 := by
    intro e he
    obtain ⟨_, -, _, _, -, hl, -⟩ := hcomponents.stores e.1 e.2 (hperm.mem_iff.mp he)
    exact hl.accepted
  obtain ⟨g', hg'⟩ := exists_insertAllNamed haccepted {}
  have hcomponents' : g'.Components entries' :=
    Components.empty.insertAllNamed ((hperm.map Prod.fst).nodup_iff.mpr hkeys) hg'
  refine ⟨g', hg', fun name hname => ?_⟩
  obtain ⟨⟨_, value⟩, hmem, rfl⟩ := List.mem_map.mp hname
  obtain ⟨id, hid, -⟩ := hcomponents.stores _ value hmem
  obtain ⟨id', hid', hpair⟩ := counterpart_named hcomponents hcomponents' hperm hid
  refine ⟨id, id', hid, hid', fun scope scope' => ?_⟩
  have htypes :=
    (mirrored_of_perm hcomponents hcomponents' hperm hpoints scope scope').types_eq hpair
  exact ⟨htypes, congrArg Shape.ofTypes htypes⟩

/-- A component that refers to a branching schema in another one, one branch of which refers
back. -/
def circular : List (String × Value) :=
  [("a/b", .object [("$ref", .string "#/components/schemas/c/properties/p%20q"),
      ("type", .string "string")]),
    ("c", .object [("properties", .object [("p q", .object [("anyOf", .array [
      .object [("$ref", .string "#/components/schemas/a~1b")],
      .object [("type", .string "integer")]])])])])]

theorem types_of_perm_circular :
    ∃ g g', ofNamedValues circular = .ok g ∧ ofNamedValues circular.reverse = .ok g' ∧
      g.named.get? "a/b" = some 0 ∧ g'.named.get? "a/b" = some 4 ∧
      Classifier.types { graph := g } 0 = Classifier.types { graph := g' } 4 ∧
      Classifier.types { graph := g } 0 = .single "string" := by
  have hok : (ofNamedValues circular).isOk = true := by decide +kernel
  obtain ⟨g, hg⟩ := exists_of_isOk hok
  have hdef : g = (ofNamedValues circular).toOption.getD {} := by
    rw [hg]
    rfl
  have hsize : g.size = 5 := by rw [hdef]; decide +kernel
  have hpoints : g.PointsToComponents := by
    have hall : ∀ id < 5, ((g.node? id).bind fun node => node.text .dynamicRef) = none ∧
        ((g.node? id).bind fun node => node.text .ref) ∈ [none,
          some "#/components/schemas/c/properties/p%20q", some "#/components/schemas/a~1b"] := by
      rw [hdef]
      decide +kernel
    refine ⟨fun id node hn => ?_, fun id node reference hn href => ?_⟩
    · have hid := (hall id (hsize ▸ lt_size_of_node? hn)).1
      rwa [hn] at hid
    · have hid := (hall id (hsize ▸ lt_size_of_node? hn)).2
      rw [hn, Option.bind_some, href] at hid
      simp only [List.mem_cons, List.not_mem_nil, or_false, reduceCtorEq, false_or,
        Option.some.injEq] at hid
      rcases hid with rfl | rfl
      · refine ⟨"c", ["properties", "p q"], 4, 3,
          ⟨"components/schemas/c/properties/p%20q", ?_, ?_⟩, ?_, ?_⟩
        · decide +kernel
        · decide +kernel
        · rw [hdef]
          decide +kernel
        · rw [hdef]
          decide +kernel
      · refine ⟨"a/b", [], 0, 0, ⟨"components/schemas/a~1b", ?_, ?_⟩, ?_, ?_⟩
        · decide +kernel
        · decide +kernel
        · rw [hdef]
          decide +kernel
        · rw [hdef]
          decide +kernel
  obtain ⟨g', hg', hsame⟩ := types_of_perm (by decide) hg hpoints
    circular.reverse_perm
  obtain ⟨id, id', hid, hid', htypes⟩ := hsame "a/b" (by decide)
  have hzero : g.named.get? "a/b" = some 0 := by
    rw [hdef]
    decide +kernel
  have hfour : g'.named.get? "a/b" = some 4 := by
    have hnumber : ((ofNamedValues circular.reverse).toOption.bind fun g =>
        g.named.get? "a/b") = some 4 := by decide +kernel
    rwa [hg'] at hnumber
  cases hzero.symm.trans hid
  cases hfour.symm.trans hid'
  refine ⟨g, g', hg, hg', hzero, hfour, (htypes none none).1, ?_⟩
  rw [hdef]
  decide +kernel

end Graph

end OpenApi.Schema
