import Mathlib.Data.List.Find
import OpenApi.Proofs.Schema.Component
import OpenApi.Proofs.Schema.Insertion
import OpenApi.Proofs.Schema.Reordering
import OpenApi.Proofs.Schema.Writing

/-!
# What a failed load leaves

A call that fails registers nothing, but the nodes that it pushed before the fault stay in the
graph. The nodes that were there keep their parents, their resources, their values and what pointers
lead to from them. References are looked up among all nodes, so one that the earlier nodes do not
answer may find a node that was left.

* `Graph.Grows.resourceRoot`, `Graph.Grows.resourceNodes`, `Graph.Grows.walkPointer`,
  `Graph.Grows.toValue`: earlier nodes do not see the later ones;
* `Graph.strays`, `Graph.strayAnswer?`: the later nodes, and what they answer to a reference;
* `Graph.resolve_after_fault`: what a failed call changes, and what it does not;
* `Graph.not_resolve_after_fault`: it does change what references stand for.
-/

namespace OpenApi.Schema.Graph

open Json

variable {g g' : Graph} {c id m n p base : NodeId} {name reference fragment document : String}
  {start around : Option NodeId} {call : Insertion} {e : LoadFault}

/-! ## Built graphs -/

/-- Loading fills no slots of booleans. -/
theorem Built.whole (hg : g.Built) : g.Whole := by
  have congr {g₁ g₂ : Graph} (h : g₁.Whole) (hn : g₂.nodes = g₁.nodes) : g₂.Whole := by
    intro id node hid
    rw [node?, hn] at hid
    exact h id node hid
  induction hg with
  | empty => exact fun id node hid => by simp [node?] at hid
  | insert _ h ih =>
    obtain ⟨g₁, hl, rfl⟩ := insert_eq_ok h
    exact congr (whole_of_loads hl ih) (nodes_addRoot _ _)
  | insertNamed _ h ih =>
    obtain ⟨g₁, hl, rfl⟩ := insertNamed_eq_ok h
    exact congr (whole_of_loads hl ih) (nodes_addRoot _ _)

/-- Names stand for top-level schemas. -/
theorem Built.mem_roots (hg : g.Built) (hid : g.named.get? name = some id) : id ∈ g.roots := by
  induction hg with
  | empty => cases hid
  | @insert g g' value root hb h ih =>
    obtain ⟨g₁, hl, rfl⟩ := insert_eq_ok h
    have he := hl.extends hb.rooted.forest
    rw [named_addRoot, he.grows.named] at hid
    have hmem := ih hid
    rw [← he.grows.roots] at hmem
    exact (subset_roots_addRoot g₁ root).2 id hmem
  | @insertNamed g g' name' value root hb h ih =>
    obtain ⟨g₁, hl, rfl⟩ := insertNamed_eq_ok h
    have he := hl.extends hb.rooted.forest
    obtain ⟨hroot, hroots⟩ := subset_roots_addRoot g₁ root
    rw [nameRoot, OrderedMap.get?_insert, named_addRoot, he.grows.named] at hid
    split at hid
    · cases hid
      exact hroot
    · have hmem := ih hid
      rw [← he.grows.roots] at hmem
      exact hroots id hmem

theorem Built.lt_size_of_named (hg : g.Built) (hid : g.named.get? name = some id) :
    id < g.size :=
  (hg.rooted.roots id (hg.mem_roots hid)).1

/-! ## Earlier nodes -/

theorem Forest.lt_size_of_mem_visits (hf : g.Forest) {skip : NodeId → Bool} (hn : n < g.size)
    (hm : m ∈ g.visits skip n) : m < g.size :=
  Nat.lt_of_le_of_lt ((hf.reaches_of_mem_visits hm).le hf) hn

namespace Grows

section

variable (h : g.Grows g')
include h

theorem subschemas (hn : n < g.size) : g'.subschemas n = g.subschemas n := by
  rw [Graph.subschemas, Graph.subschemas, h.node? n hn]

theorem resourceId? (hn : n < g.size) : g'.resourceId? n = g.resourceId? n := by
  rw [Graph.resourceId?, Graph.resourceId?, h.node? n hn]

theorem opensResource (hn : n < g.size) : g'.opensResource n = g.opensResource n := by
  rw [Graph.opensResource, Graph.opensResource, h.resourceId? hn]

theorem declares (hn : n < g.size) : g'.declares name n = g.declares name n := by
  rw [Graph.declares, Graph.declares, h.node? n hn]

theorem root? : g'.root? = g.root? := by
  rw [Graph.root?, Graph.root?, h.roots]

/-- A pointer leads to the same node from an earlier one. -/
theorem walkPointer (hwhole : g.Whole) (hf : g.Forest) {segments : List String}
    (hid : id < g.size) : g'.walkPointer id segments = g.walkPointer id segments := by
  have hchild : ∀ {n node c} (s : Slot), g.node? n = some node → c ∈ node.slot s → c < g.size :=
    fun _ hnode hc => hf.lt_size_of_mem_subschemas (hwhole.mem_subschemas hnode hc)
  induction hlength : segments.length using Nat.strongRecOn generalizing id segments with
  | ind length ih =>
    subst hlength
    cases segments with
    | nil => rw [Graph.walkPointer, Graph.walkPointer]
    | cons word rest =>
      rw [walkPointer.eq_def, walkPointer.eq_def, h.node? id hid]
      dsimp only
      split
      next node k hn hs =>
        split
        next c hc =>
          have hlt : rest.length < (word :: rest).length := Nat.lt_succ_self _
          exact ih rest.length hlt (hchild (.child k) hn (Option.mem_toList.mpr hc)) rfl
        next => rfl
      next node k hn hs =>
        cases rest with
        | nil => rfl
        | cons segment rest =>
          dsimp only
          split
          next c hc =>
            obtain ⟨i, -, hi⟩ := Option.bind_eq_some_iff.mp hc
            refine ih rest.length ?_ (hchild (.list k) hn (List.mem_of_getElem? hi)) rfl
            exact Nat.lt_trans (Nat.lt_succ_self _) (Nat.lt_succ_self _)
          next => rfl
      next node k hn hs =>
        cases rest with
        | nil => rfl
        | cons key rest =>
          dsimp only
          split
          next c hc =>
            refine ih rest.length ?_ (hchild (.map k) hn (OrderedMap.mem_values_of_get? hc)) rfl
            exact Nat.lt_trans (Nat.lt_succ_self _) (Nat.lt_succ_self _)
          next => rfl
      next => rfl

end

section

variable (h : g.Grows g') (hf : g.Forest) (hf' : g'.Forest)
include h hf hf'

theorem resourceRoot (hn : n < g.size) : g'.resourceRoot n = g.resourceRoot n := by
  induction n using hf.upward with
  | top n htop =>
    have htop' : g'.parent? n = none := (h.parent? n hn).trans htop
    rw [hf.resourceRoot_of_opens (.inr htop), hf'.resourceRoot_of_opens (.inr htop')]
  | below n p hp ih =>
    have hp' : g'.parent? n = some p := (h.parent? n hn).trans hp
    cases hopen : g.opensResource n with
    | true =>
      have hopen' : g'.opensResource n = true := (h.opensResource hn).trans hopen
      rw [hf.resourceRoot_of_opens (.inl hopen), hf'.resourceRoot_of_opens (.inl hopen')]
    | false =>
      have hopen' : g'.opensResource n = false := (h.opensResource hn).trans hopen
      rw [hf.resourceRoot_of_below hp hopen, hf'.resourceRoot_of_below hp' hopen']
      exact ih (Graph.lt_size_of_mem_subschemas (hf.parent?_eq_some_iff.mp hp))

theorem visits {skip skip' : NodeId → Bool} (hskip : ∀ m < g.size, skip' m = skip m)
    (hn : n < g.size) : g'.visits skip' n = g.visits skip n := by
  induction n using hf.downward with
  | node n ih =>
    rw [hf.visits_eq, hf'.visits_eq, hskip n hn, h.subschemas hn]
    congr 2
    exact List.flatMap_congr fun c hc => ih c hc (hf.lt_size_of_mem_subschemas hc)

/-- The nodes of an earlier resource are the same. -/
theorem resourceNodes (hn : n < g.size) : g'.resourceNodes n = g.resourceNodes n := by
  have hother : ∀ m < g.size, g'.opensOther n m = g.opensOther n m := fun m hm => by
    rw [Graph.opensOther, Graph.opensOther, h.opensResource hm]
  have hn' : n < g'.size := Nat.lt_of_lt_of_le hn h.size
  rw [Graph.resourceNodes, Graph.resourceNodes, hf.walk_eq hn, hf'.walk_eq hn',
    h.visits hf hf' hother hn]
  refine List.filter_congr fun m hm => ?_
  rw [hother m (hf.lt_size_of_mem_visits hn hm)]

theorem anchor? (hn : n < g.size) : g'.anchor? n name = g.anchor? n name := by
  rw [Graph.anchor?, Graph.anchor?, h.resourceNodes hf hf' hn]
  refine List.find?_congr fun m hm => h.declares ?_
  rw [Graph.resourceNodes, hf.walk_eq hn] at hm
  exact hf.lt_size_of_mem_visits hn (List.mem_of_mem_filter hm)

/-- The value of an earlier node is the same. -/
theorem toValue (hn : n < g.size) : g'.toValue n = g.toValue n := by
  induction n using Nat.strongRecOn with
  | ind n ih =>
    obtain ⟨node, hnode, hsubs⟩ := node?_of_lt hn
    have hnode' : g'.node? n = some node := (h.node? n hn).trans hnode
    cases hb : node.boolean with
    | some b => simp [Graph.toValue, valueBelow, hnode, hnode', hb]
    | none =>
      rw [hf.toValue_eq hnode hb, hf'.toValue_eq hnode' hb]
      refine congrArg Value.ofMap (Node.members_congr fun s c hc => ?_)
      have hlt : c < n := by
        refine hf.lt ?_
        rw [hsubs]
        exact Node.mem_subschemas hb hc
      exact ih c hlt (Nat.lt_trans hlt hn)

theorem documentOf (hn : n < g.size) (declared : String) :
    g'.documentOf n declared = g.documentOf n declared := by
  have haround : ((g'.parent? n).bind fun parent => g'.resourceId? (g'.resourceRoot parent)) =
      (g.parent? n).bind fun parent => g.resourceId? (g.resourceRoot parent) := by
    rw [h.parent? n hn]
    cases hp : g.parent? n with
    | none => rfl
    | some p =>
      have hlt : p < g.size := Graph.lt_size_of_mem_subschemas (hf.parent?_eq_some_iff.mp hp)
      have hroot : g.resourceRoot p < g.size := (hf.reaches_resourceRoot p).lt_size hlt
      simp only [Option.bind_some, h.resourceRoot hf hf' hlt, h.resourceId? hroot]
  rw [Graph.documentOf, Graph.documentOf, haround]

end

end Grows

/-! ## Scans of all nodes -/

/-- The nodes that a later graph has beyond those of an earlier one. -/
def strays (g g' : Graph) : List NodeId := List.range' g.size (g'.size - g.size)

theorem Grows.mem_strays (h : g.Grows g') : n ∈ g.strays g' ↔ g.size ≤ n ∧ n < g'.size := by
  rw [strays, List.mem_range'_1, Nat.add_sub_of_le h.size]

theorem Grows.ids_eq (h : g.Grows g') : g'.ids = g.ids ++ g.strays g' := by
  have happend := List.range'_append_1 (s := 0) (m := g.size) (n := g'.size - g.size)
  rw [Nat.zero_add, Nat.add_sub_of_le h.size] at happend
  rw [ids, ids, List.range_eq_range', List.range_eq_range', strays, happend]

/-- A scan finds what it found before, or else the first stray that fits. -/
theorem Grows.find?_ids (h : g.Grows g') {test test' : NodeId → Bool}
    (ht : ∀ n < g.size, test' n = test n) :
    g'.ids.find? test' = (g.ids.find? test).or ((g.strays g').find? test') := by
  rw [h.ids_eq, List.find?_append]
  congr 1
  exact List.find?_congr fun n hn => ht n (List.mem_range.mp hn)

/-- Whether the `$id` of a node names a document, for a reference in the given resource. -/
def isDocument (g : Graph) (document : String) (around : Option NodeId) (id : NodeId) : Bool :=
  match g.resourceId? id with
  | none => false
  | some declared =>
    Reference.stripFragment declared == Reference.stripFragment document ||
      g.documentOf id declared ==
        Reference.stripFragment (Reference.resolveAgainst document (around.bind g.resourceId?))

theorem resource?_eq_find? (g : Graph) (document : String) (around : Option NodeId) :
    g.resource? document around = g.ids.find? (g.isDocument document around) := rfl

/-- The definition with a name that a node has. -/
def definitionOf? (g : Graph) (name : String) (id : NodeId) : Option NodeId :=
  (g.node? id).bind fun node => (node.map .defs).get? name

theorem definition?_eq_findSome? (g : Graph) (name : String) :
    g.definition? name = g.ids.findSome? (g.definitionOf? name) := rfl

/-- The anchor that a fragment names, unless it is a pointer. -/
def anchorOf? (fragment : String) : Option String :=
  match fragment.toList with
  | [] => none
  | c :: _ => if c = '/' then none else some (Reference.decodeSegment fragment)

theorem anchorOf?_eq_none (h : anchorOf? fragment = none) :
    fragment.toList = [] ∨ ∃ cs, fragment.toList = '/' :: cs := by
  rw [anchorOf?] at h
  split at h
  next hnil => exact .inl hnil
  next c cs hcs =>
    split at h
    next hc => exact .inr ⟨cs, hc ▸ hcs⟩
    next => cases h

theorem resolveFragment_of_anchor (h : anchorOf? fragment = some name) :
    g.resolveFragment base fragment =
      (g.anchor? (g.resourceRoot base) name).or (g.ids.find? (g.declares name)) := by
  rw [anchorOf?] at h
  rw [resolveFragment]
  split at h
  next => cases h
  next c cs hcs =>
    split at h
    next => cases h
    next hc =>
      obtain rfl := Option.some.inj h
      rw [hcs]
      split
      next hnil => cases hnil
      next hslash => exact absurd (List.cons.inj hslash).1 hc
      next hslash => exact absurd (List.cons.inj hslash).1 hc
      next => rfl

/-- The first stray that declares the anchor of a fragment. -/
def strayAnchor? (g g' : Graph) (fragment : String) : Option NodeId :=
  (anchorOf? fragment).bind fun name => (g.strays g').find? (g'.declares name)

/-- The resource around a node, or that of the first root. -/
def around? (g : Graph) (start : Option NodeId) : Option NodeId :=
  (start.map g.resourceRoot).or g.root?

theorem Built.lt_size_of_mem_around? (hg : g.Built) (hstart : ∀ n ∈ start, n < g.size) :
    ∀ b ∈ g.around? start, b < g.size := by
  intro b hb
  rw [around?] at hb
  cases start with
  | none => exact (hg.rooted.roots b (List.mem_of_mem_head? hb)).1
  | some n =>
    cases hb
    exact (hg.rooted.forest.reaches_resourceRoot n).lt_size (hstart n rfl)

/-- The resource that the document of a reference names. -/
def base? (g : Graph) (start : Option NodeId) (document : String) : Option NodeId :=
  if document.isEmpty then g.around? start else g.resource? document (g.around? start)

theorem Built.lt_size_of_mem_base? (hg : g.Built) (hstart : ∀ n ∈ start, n < g.size) :
    ∀ b ∈ g.base? start document, b < g.size := by
  intro b hb
  rw [base?] at hb
  split at hb
  · exact hg.lt_size_of_mem_around? hstart b hb
  · exact List.mem_range.mp (List.mem_of_find?_eq_some hb)

/-- The first stray whose `$id` names a document. -/
def strayBase? (g g' : Graph) (start : Option NodeId) (document : String) : Option NodeId :=
  if document.isEmpty then none
  else (g.strays g').find? (g'.isDocument document (g.around? start))

theorem locate_eq (g : Graph) (start : Option NodeId) (reference : String) :
    g.locate start reference =
      (g.base? start (Reference.splitFragment reference).1).bind fun base =>
        g.resolveFragment base ((Reference.splitFragment reference).2.getD "") := by
  rw [locate, base?, around?]
  split
  next document fragment hsplit =>
    rw [hsplit]
    split <;> rfl

/-- What the strays add where a reference is looked up by its document and fragment: the anchor if
an earlier resource is meant, and else a resource of their own. -/
def strayTarget? (g g' : Graph) (start : Option NodeId) (reference : String) : Option NodeId :=
  let document := (Reference.splitFragment reference).1
  let fragment := (Reference.splitFragment reference).2.getD ""
  match g.base? start document with
  | some _ => g.strayAnchor? g' fragment
  | none => (g.strayBase? g' start document).bind fun base => g'.resolveFragment base fragment

/-- What the strays answer to a reference before the earlier nodes do. A name comes last, and there
the earlier nodes come first. -/
def strayAnswer? (g g' : Graph) (start : Option NodeId) (reference : String) : Option NodeId :=
  let reference := Text.trim reference
  let name := Reference.name reference
  if (g.locate start reference).isSome then none
  else
    (g.strayTarget? g' start reference).or
      (if ((g.named.get? name).or (g.definition? name)).isSome then none
      else (g.strays g').findSome? (g'.definitionOf? name))

namespace Grows

section

variable (h : g.Grows g') (hg : g.Built) (hf' : g'.Forest)
include h hg hf'

/-- A fragment of an earlier resource stands for what it stood for, or else names the anchor of a
stray. -/
theorem resolveFragment (hbase : base < g.size) (fragment : String) :
    g'.resolveFragment base fragment =
      (g.resolveFragment base fragment).or (g.strayAnchor? g' fragment) := by
  have hf := hg.rooted.forest
  cases hname : anchorOf? fragment with
  | some name =>
    have hroot : g.resourceRoot base < g.size := (hf.reaches_resourceRoot base).lt_size hbase
    rw [resolveFragment_of_anchor hname, resolveFragment_of_anchor hname,
      h.resourceRoot hf hf' hbase, h.anchor? hf hf' hroot, h.find?_ids fun n => h.declares,
      strayAnchor?, hname, Option.bind_some, Option.or_assoc]
  | none =>
    rw [strayAnchor?, hname, Option.bind_none, Option.or_none]
    rw [Graph.resolveFragment, Graph.resolveFragment]
    split
    next => rfl
    next => rfl
    next pointer _ =>
      split
      next name rest _ =>
        rw [h.named]
        cases hid : g.named.get? name with
        | none => rfl
        | some id => exact h.walkPointer hg.whole hf (hg.lt_size_of_named hid)
      next => exact h.walkPointer hg.whole hf hbase
    next hempty _ hslash =>
      obtain hnil | ⟨cs, hcs⟩ := anchorOf?_eq_none hname
      · exact absurd hnil hempty
      · exact absurd hcs (hslash cs)

theorem around? (hstart : ∀ n ∈ start, n < g.size) : g'.around? start = g.around? start := by
  rw [Graph.around?, Graph.around?, h.root?]
  cases start with
  | none => rfl
  | some n =>
    rw [Option.map_some, Option.map_some, h.resourceRoot hg.rooted.forest hf' (hstart n rfl)]

theorem isDocument (haround : ∀ b ∈ around, b < g.size) (hn : n < g.size) :
    g'.isDocument document around n = g.isDocument document around n := by
  have hid : around.bind g'.resourceId? = around.bind g.resourceId? := by
    cases around with
    | none => rfl
    | some b => exact h.resourceId? (haround b rfl)
  rw [Graph.isDocument, Graph.isDocument, h.resourceId? hn, hid]
  cases g.resourceId? n with
  | none => rfl
  | some declared => simp only [h.documentOf hg.rooted.forest hf' hn]

/-- The document of a reference names the resource that it named, or else that of a stray. -/
theorem base? (hstart : ∀ n ∈ start, n < g.size) :
    g'.base? start document = (g.base? start document).or (g.strayBase? g' start document) := by
  rw [Graph.base?, Graph.base?, strayBase?, h.around? hg hf' hstart]
  split
  · rw [Option.or_none]
  · rw [resource?_eq_find?, resource?_eq_find?]
    exact h.find?_ids fun n hn => h.isDocument hg hf' (hg.lt_size_of_mem_around? hstart) hn

theorem locate (hstart : ∀ n ∈ start, n < g.size) :
    g'.locate start reference =
      (g.locate start reference).or (g.strayTarget? g' start reference) := by
  rw [locate_eq, locate_eq, strayTarget?, h.base? hg hf' hstart]
  cases hbase : g.base? start (Reference.splitFragment reference).1 with
  | none => simp only [Option.none_or, Option.bind_none]
  | some base =>
    simp only [Option.some_or, Option.bind_some]
    exact h.resolveFragment hg hf' (hg.lt_size_of_mem_base? hstart base hbase) _

omit hg hf' in
theorem definition? (name : String) :
    g'.definition? name =
      (g.definition? name).or ((g.strays g').findSome? (g'.definitionOf? name)) := by
  rw [definition?_eq_findSome?, definition?_eq_findSome?, h.ids_eq, List.findSome?_append]
  congr 1
  refine findSome?_congr fun n hn => ?_
  rw [definitionOf?, definitionOf?, h.node? n (List.mem_range.mp hn)]

/-- A reference stands for what a stray answers before the earlier nodes do, and else for what it
stood for. -/
theorem resolve (hstart : ∀ n ∈ start, n < g.size) :
    g'.resolve start reference =
      (g.strayAnswer? g' start reference).or (g.resolve start reference) := by
  rw [Graph.resolve, Graph.resolve, strayAnswer?]
  dsimp only
  rw [h.locate hg hf' hstart, h.named, h.definition?]
  cases g.locate start (Text.trim reference) with
  | some id => rfl
  | none =>
    cases g.strayTarget? g' start (Text.trim reference) with
    | some id => rfl
    | none =>
      cases g.named.get? (Reference.name (Text.trim reference)) with
      | some id => rfl
      | none =>
        cases g.definition? (Reference.name (Text.trim reference)) with
        | some id => rfl
        | none => simp

end

end Grows

/-- A node that could answer a reference by a scan: its `$id` names the document, it declares the
anchor, or it has a definition with the name. -/
def Offers (g : Graph) (start : Option NodeId) (reference : String) (id : NodeId) : Prop :=
  let reference := Text.trim reference
  let document := (Reference.splitFragment reference).1
  let fragment := (Reference.splitFragment reference).2.getD ""
  (document ≠ "" ∧ g.isDocument document (g.around? start) id = true) ∨
    (∃ name, anchorOf? fragment = some name ∧ g.declares name id = true) ∨
    g.definitionOf? (Reference.name reference) id ≠ none

/-- Where no stray could answer, the strays do not. -/
theorem Grows.strayAnswer?_eq_none (h : g.Grows g') (hg : g.Built) (hf' : g'.Forest)
    (hstart : ∀ n ∈ start, n < g.size)
    (hoffers : ∀ n, g.size ≤ n → ¬ g'.Offers start reference n) :
    g.strayAnswer? g' start reference = none := by
  have hstray : ∀ n ∈ g.strays g', ¬ g'.Offers start reference n := fun n hn =>
    hoffers n (h.mem_strays.mp hn).1
  have hanchor : g.strayAnchor? g' ((Reference.splitFragment (Text.trim reference)).2.getD "") =
      none := by
    rw [strayAnchor?]
    cases hname : anchorOf? ((Reference.splitFragment (Text.trim reference)).2.getD "") with
    | none => rfl
    | some name =>
      exact List.find?_eq_none.mpr fun n hn hd => hstray n hn (.inr (.inl ⟨name, hname, hd⟩))
  have hbase : g.strayBase? g' start (Reference.splitFragment (Text.trim reference)).1 = none := by
    rw [strayBase?]
    split
    next => rfl
    next hdocument =>
      refine List.find?_eq_none.mpr fun n hn hd => hstray n hn (.inl ⟨?_, ?_⟩)
      · simpa [String.isEmpty_iff] using hdocument
      · rwa [h.around? hg hf' hstart]
  have htarget : g.strayTarget? g' start (Text.trim reference) = none := by
    rw [strayTarget?]
    split
    · exact hanchor
    · rw [hbase, Option.bind_none]
  have hdefinition : (g.strays g').findSome?
      (g'.definitionOf? (Reference.name (Text.trim reference))) = none := by
    refine List.findSome?_eq_none_iff.mpr fun n hn => ?_
    by_contra hd
    exact hstray n hn (.inr (.inr hd))
  rw [strayAnswer?, htarget, hdefinition]
  simp

/-! ## Failed calls -/

theorem load_of_fault (h : call.run g = (.error e, g')) :
    (load call.pointer call.value).result g = (.error e, g') := by
  rw [call.run_eq] at h
  rcases hl : (load call.pointer call.value).result g with ⟨e | id, g'⟩ <;> rw [hl] at h
  · exact h
  · cases h

/-- A failed call keeps the top-level schemas and their names, and the parents and the values of
all nodes that there were. A reference on one of them, or on none, stands for what a stray answers
before they do, and else for what it stood for, as it does where no stray could answer. -/
theorem resolve_after_fault (hg : g.Built) (hrun : call.run g = (.error e, g')) :
    g'.roots = g.roots ∧ g'.named = g.named ∧
      (∀ n < g.size, g'.parent? n = g.parent? n ∧ g'.toValue n = g.toValue n) ∧
      ∀ start, (∀ n ∈ start, n < g.size) → ∀ reference,
        g'.resolve start reference =
            (g.strayAnswer? g' start reference).or (g.resolve start reference) ∧
          ((∀ n, g.size ≤ n → ¬ g'.Offers start reference n) →
            g'.resolve start reference = g.resolve start reference) := by
  have hf := hg.rooted.forest
  obtain ⟨h, hf'⟩ := keepsForest_load call.value call.pointer g ⟨.refl g, hf⟩
  rw [load_of_fault hrun] at h hf'
  refine ⟨h.roots, h.named, fun n hn => ⟨h.parent? n hn, h.toValue hf hf' hn⟩,
    fun start hstart reference => ?_⟩
  have hresolve : g'.resolve start reference = _ := h.resolve hg hf' hstart
  refine ⟨hresolve, fun hoffers => ?_⟩
  rw [hresolve, h.strayAnswer?_eq_none hg hf' hstart hoffers, Option.none_or]

/-- One component with the name `a`. -/
def lone : Graph := (Insertion.run {} (.named "a" (.object [("type", .string "object")]))).2

theorem built_lone : lone.Built :=
  .insertNamed .empty (Prod.ext rfl rfl : Graph.insertNamed {} "a" _ = (.ok 0, lone))

/-- A value with a fault after a subschema that declares the anchor `a`. -/
def anchored : Insertion :=
  .unnamed (.object [("allOf", .array [.object [("$anchor", .string "a")], .null])])

theorem run_anchored : anchored.run lone =
    (.error ⟨"#/allOf/1", "null"⟩, (anchored.run lone).2) :=
  Prod.ext rfl rfl

theorem resolve_after_fault_anchored :
    lone.Built ∧ (∃ e, anchored.run lone = (.error e, (anchored.run lone).2)) ∧
      lone.resolve (some 0) "#a" = some 0 ∧
      (anchored.run lone).2.resolve (some 0) "#a" = some 1 ∧
      (∀ n, lone.size ≤ n → ¬ (anchored.run lone).2.Offers (some 0) "#b" n) ∧
      (anchored.run lone).2.resolve (some 0) "#b" = lone.resolve (some 0) "#b" := by
  have hstart : ∀ n ∈ some 0, n < lone.size := by decide +kernel
  have hoffers : ∀ n, lone.size ≤ n → ¬ (anchored.run lone).2.Offers (some 0) "#b" n := by
    have hdocument : (Reference.splitFragment (Text.trim "#b")).1 = "" := by decide +kernel
    have hanchor : anchorOf? ((Reference.splitFragment (Text.trim "#b")).2.getD "") = some "b" := by
      decide +kernel
    have hname : Reference.name (Text.trim "#b") = "b" := by decide +kernel
    have hsize : lone.size = 1 := by decide +kernel
    have hsize' : (anchored.run lone).2.size = 2 := by decide +kernel
    intro n hn
    have hnode : (anchored.run lone).2.declares "b" n = false ∧
        (anchored.run lone).2.definitionOf? "b" n = none := by
      by_cases hlt : n < 2
      · have hone : n = 1 := Nat.le_antisymm (Nat.le_of_lt_succ hlt) (hsize ▸ hn)
        rw [hone]
        decide +kernel
      · have hnone : (anchored.run lone).2.node? n = none :=
          Array.getElem?_eq_none (hsize'.trans_le (Nat.le_of_not_lt hlt))
        rw [declares, definitionOf?, hnone]
        exact ⟨rfl, rfl⟩
    rintro (⟨hne, -⟩ | ⟨name, ha, hd⟩ | hd)
    · exact hne hdocument
    · rw [hanchor] at ha
      cases ha
      rw [hnode.1] at hd
      cases hd
    · rw [hname] at hd
      exact hd hnode.2
  obtain ⟨-, -, -, hresolve⟩ := resolve_after_fault built_lone run_anchored
  have hstray : lone.strayAnswer? (anchored.run lone).2 (some 0) "#a" = some 1 := by decide +kernel
  refine ⟨built_lone, ⟨_, run_anchored⟩, by decide +kernel, ?_, hoffers,
    (hresolve (some 0) hstart "#b").2 hoffers⟩
  rw [(hresolve (some 0) hstart "#a").1, hstray, Option.some_or]

/-- A failed call may change what a reference stands for. -/
theorem not_resolve_after_fault : ¬ ∀ (g g' : Graph) (call : Insertion) (e : LoadFault),
    g.Built → call.run g = (.error e, g') → ∀ start, (∀ n ∈ start, n < g.size) →
      ∀ reference, g'.resolve start reference = g.resolve start reference := by
  intro hclaim
  have hsame := hclaim _ _ _ _ built_lone run_anchored (some 0) (by decide +kernel) "#a"
  have hbefore : lone.resolve (some 0) "#a" = some 0 := by decide +kernel
  have hafter : (anchored.run lone).2.resolve (some 0) "#a" = some 1 := by decide +kernel
  rw [hbefore, hafter] at hsame
  cases hsame

end OpenApi.Schema.Graph
