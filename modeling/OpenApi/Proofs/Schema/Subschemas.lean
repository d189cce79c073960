import OpenApi.Proofs.Schema.Strays

/-!
# Pointers follow the edges to subschemas

A pointer names the slots that it passes, and a subschema stands in one of them. Both enumerations
of the slots, the words that pointers know and the order in which subschemas are visited, are the
same, so that pointers lead to what is reached, and to nothing else.

* `Graph.Pointable.mem_subschemas_iff`: a subschema is what one step of a pointer leads to;
* `Graph.walkPointer_induction`: a pointer that leads somewhere, step by step;
* `Graph.reaches_iff_exists_walkPointer`: the nodes that are reached are those that pointers lead
  to, one pointer after another.
-/

namespace OpenApi.Schema

variable {g : Graph} {node : Node} {a b c id n p : NodeId}

/-! ## One step -/

/-- A subschema has a token beside the word of its slot. -/
theorem Node.exists_at?_of_mem_slot {s : Slot} (hlist : ∀ k, (node.list k).length ≤ 2 ^ 64)
    (hc : c ∈ node.slot s) : ∃ token, node.at? s token = some c := by
  cases s with
  | child k => exact ⟨none, Option.mem_toList.mp hc⟩
  | list k =>
    obtain ⟨i, hlt, hi⟩ := List.mem_iff_getElem.mp hc
    have hposition : Graph.position? (indexToken i) = some i :=
      position?_digits (Nat.lt_of_lt_of_le hlt (hlist k))
    refine ⟨some (indexToken i), ?_⟩
    rw [at?, hposition, Option.bind_some]
    exact List.getElem?_eq_some_iff.mpr ⟨hlt, hi⟩
  | map k =>
    obtain ⟨⟨name, c⟩, hmem, rfl⟩ := List.mem_map.mp hc
    exact ⟨some name, OrderedMap.get?_eq_some_iff.mpr hmem⟩

namespace Graph

/-- What pointers need of a graph: booleans have no subschemas, and the positions in a list are
numbers of 64 bits. -/
structure Pointable (g : Graph) : Prop where
  boolean : ∀ id node, g.node? id = some node → node.boolean.isSome → ∀ s, node.slot s = []
  positions : ∀ id node, g.node? id = some node → ∀ k, (node.list k).length ≤ 2 ^ 64

theorem Pointable.whole (hg : g.Pointable) : g.Whole := by
  intro id node hnode s c hc
  rw [Node.subschemas]
  split
  next hb =>
    rw [hg.boolean id node hnode hb] at hc
    cases hc
  next => exact List.mem_flatMap.mpr ⟨s, s.mem_traversal, hc⟩

/-- A subschema is what one step of a pointer leads to. -/
theorem Pointable.mem_subschemas_iff (hg : g.Pointable) : c ∈ g.subschemas p ↔
    ∃ node s token, g.node? p = some node ∧ node.at? s token = some c := by
  constructor
  · intro hc
    obtain ⟨node, hnode, hsubs⟩ := node?_of_lt (Graph.lt_size_of_mem_subschemas hc)
    rw [hsubs, Node.subschemas] at hc
    split at hc
    · cases hc
    · obtain ⟨s, -, hc⟩ := List.mem_flatMap.mp hc
      obtain ⟨token, hat⟩ := Node.exists_at?_of_mem_slot (hg.positions p node hnode) hc
      exact ⟨node, s, token, hnode, hat⟩
  · rintro ⟨node, s, token, hnode, hat⟩
    exact hg.whole.mem_subschemas hnode (Node.mem_slot_of_at? hat)

theorem Whole.slot_eq_nil (hg : g.Whole) (hnode : g.node? id = some node)
    (hb : node.boolean.isSome) (s : Slot) : node.slot s = [] := by
  refine List.eq_nil_iff_forall_not_mem.mpr fun c hc => ?_
  have hsub := hg id node hnode s c hc
  rw [Node.subschemas, if_pos hb] at hsub
  cases hsub

/-- In a loaded graph a node stands in a list once, so that lists are no longer than the graph. -/
theorem Built.pointable (hg : g.Built) (hsize : g.size ≤ 2 ^ 64) : g.Pointable where
  boolean _ _ := hg.whole.slot_eq_nil
  positions id node hnode k := by
    have hf := hg.rooted.forest
    have hnodup : (node.slot (.list k)).Nodup := by
      cases hb : node.boolean with
      | some b =>
        rw [hg.whole.slot_eq_nil hnode (by rw [hb]; rfl)]
        exact .nil
      | none =>
        have hall := hf.nodup id
        rw [subschemas, hnode] at hall
        simp only [Node.subschemas, hb, Option.isSome_none, Bool.false_eq_true, ↓reduceIte] at hall
        exact (List.nodup_flatMap.mp hall).1 (.list k) (Slot.mem_traversal _)
    have hsubset : node.slot (.list k) ⊆ g.ids := fun c hc =>
      List.mem_range.mpr (hf.lt_size_of_mem_subschemas (hg.whole.mem_subschemas hnode hc))
    have hle := hnodup.length_le_of_subset hsubset
    rw [ids, List.length_range] at hle
    exact Nat.le_trans hle hsize

/-! ## Pointers -/

/-- A pointer that leads somewhere ends there, or goes on from a subschema. -/
theorem walkPointer_induction {motive : NodeId → List String → Prop} (here : motive b [])
    (step : ∀ {id node word s token c rest}, g.node? id = some node → Slot.ofWord? word = some s →
      node.at? s token = some c → motive c rest → motive id (word :: (token.toList ++ rest)))
    {segments : List String} (h : g.walkPointer a segments = some b) : motive a segments := by
  induction hlength : segments.length using Nat.strongRecOn generalizing a segments with
  | ind length ih =>
    subst hlength
    cases segments with
    | nil =>
      rw [walkPointer] at h
      exact Option.some.inj h ▸ here
    | cons word rest =>
      obtain ⟨node, s, token, c, rest, hnode, hs, hc, rfl, hrest⟩ := exists_at?_of_walkPointer h
      refine step hnode hs hc (ih rest.length ?_ hrest rfl)
      simp only [List.length_cons, List.length_append]
      omega

/-- Where a pointer leads somewhere, another one after it is followed from there. -/
theorem walkPointer_append {segments : List String} (h : g.walkPointer a segments = some b)
    (rest : List String) : g.walkPointer a (segments ++ rest) = g.walkPointer b rest := by
  refine walkPointer_induction
    (motive := fun a segments => g.walkPointer a (segments ++ rest) = g.walkPointer b rest) rfl
    (fun {id node word s token c segments} hnode hs hc ih => ?_) h
  rw [List.cons_append, List.append_assoc, walkPointer_cons hnode hs hc, ih]

/-- The nodes that are reached by subschemas are those that pointers lead to, and a pointer in two
parts is followed one part after the other. -/
theorem reaches_iff_exists_walkPointer (hg : g.Pointable) :
    (∀ a b, g.Reaches a b ↔ ∃ segments, g.walkPointer a segments = some b) ∧
      ∀ a b segments, g.walkPointer a segments = some b →
        ∀ rest, g.walkPointer a (segments ++ rest) = g.walkPointer b rest := by
  refine ⟨fun a b => ⟨fun h => ?_, fun ⟨segments, h⟩ => ?_⟩,
    fun a b segments h rest => walkPointer_append h rest⟩
  · induction h with
    | refl => exact ⟨[], rfl⟩
    | @step p c _ hc ih =>
      obtain ⟨segments, hsegments⟩ := ih
      obtain ⟨node, s, token, hnode, hat⟩ := hg.mem_subschemas_iff.mp hc
      refine ⟨segments ++ s.word :: (token.toList ++ []), ?_⟩
      rw [walkPointer_append hsegments, walkPointer_cons hnode s.ofWord?_word hat, walkPointer]
  · refine walkPointer_induction (motive := fun a _ => g.Reaches a b) .refl
      (fun {id node word s token c segments} hnode hs hc ih => ?_) h
    have hsub : c ∈ g.subschemas id := hg.mem_subschemas_iff.mpr ⟨node, s, token, hnode, hc⟩
    exact (Reaches.refl.step hsub).trans ih

/-- A property with a slash in its name, and below it a list and a single subschema. -/
def layered : Graph :=
  (Graph.insert {} (.object [("properties", .object [("a/b", .object [("allOf", .array
    [.bool true, .object [("not", .bool false)]])])])])).2

theorem built_layered : layered.Built :=
  .insert .empty (Prod.ext rfl rfl : Graph.insert {} _ = (.ok 4, layered))

theorem reaches_iff_exists_walkPointer_layered : layered.Pointable ∧
    layered.Reaches 4 1 ∧ (∀ segments, layered.walkPointer 1 segments ≠ some 4) ∧
    layered.walkPointer 4 (["properties", "a/b"] ++ ["allOf", "+1", "not"]) =
      layered.walkPointer 3 ["allOf", "+1", "not"] := by
  have hpointable : layered.Pointable := built_layered.pointable (by decide +kernel)
  obtain ⟨hreaches, happend⟩ := reaches_iff_exists_walkPointer hpointable
  refine ⟨hpointable, (hreaches 4 1).mpr ⟨["properties", "a/b", "allOf", "1", "not"], ?_⟩,
    fun segments h => ?_, happend 4 3 ["properties", "a/b"] ?_ _⟩
  · decide +kernel
  · have hle := ((hreaches 1 4).mpr ⟨segments, h⟩).le built_layered.rooted.forest
    exact absurd hle (by decide)
  · decide +kernel

end Graph

end OpenApi.Schema
