import Mathlib.Data.List.Chain
import Mathlib.Logic.Relation
import OpenApi.Proofs.Schema.Forest
import OpenApi.Schema.Types

/-!
# The guard of the classifier

The classifier keeps the nodes it is in the middle of on a path and gives up on one that it meets
again. Here its result is compared with that of the recursion without a path.

* `Classifier.HasTypes`: the types of a node by the recursion without a path;
* `Classifier.typesBelow_congr`: only those nodes of a path count that can still be reached;
* `Classifier.hasTypes_typesBelow`, `Classifier.HasTypes.types_eq`: where no cycle can be reached,
  the guarded and the unguarded recursion agree;
* `Classifier.typesBelow_chain`: references that lead back to themselves have the types that the
  last of them declares;
* `Classifier.types_guarded`: both for the types of a node.
-/

namespace OpenApi.Schema

/-- Whether a node stands for another one. -/
def Node.isReference (node : Node) : Bool :=
  match node.meaning with
  | .reference _ | .dynamicReference _ => true
  | .boolean _ | .inline => false

namespace Classifier

open Relation

variable {c : Classifier} {fuel fuel' : Nat} {path path' rest : List NodeId} {a b id n t : NodeId}
  {node : Node} {ts : TypeSet}

/-! ## The recursion without a path -/

/-- The nodes whose types those of a node depend on: the target of a reference, and the branches of
a schema without types. -/
def edges (c : Classifier) (id : NodeId) : List NodeId :=
  match c.graph.node? id with
  | none => []
  | some node =>
    match node.meaning with
    | .boolean _ => []
    | .inline => if node.types.isEmpty then branches node else []
    | .reference _ | .dynamicReference _ => (c.target? id).toList

/-- One edge. -/
def Edge (c : Classifier) (a b : NodeId) : Prop := b ∈ c.edges a

instance : Decidable (c.Edge a b) := inferInstanceAs (Decidable (b ∈ c.edges a))

/-- No edges lead from a node to one that is on a cycle of edges. -/
def Acyclic (c : Classifier) (id : NodeId) : Prop :=
  ∀ n, ReflTransGen c.Edge id n → ¬ TransGen c.Edge n n

/-- The types of a node by a recursion that remembers nothing of the nodes it comes from. -/
inductive HasTypes (c : Classifier) : NodeId → TypeSet → Prop
  | missing {id : NodeId} (hnode : c.graph.node? id = none) : HasTypes c id .empty
  | boolean {id : NodeId} {node : Node} {value : Bool} (hnode : c.graph.node? id = some node)
      (hm : node.meaning = .boolean value) : HasTypes c id .empty
  | target {id t : NodeId} {ts : TypeSet} (ht : c.target? id = some t) (hts : HasTypes c t ts)
      (hne : ts.isEmpty = false) : HasTypes c id ts
  | unknownTarget {id t : NodeId} {node : Node} (hnode : c.graph.node? id = some node)
      (ht : c.target? id = some t) (hts : HasTypes c t .empty) : HasTypes c id node.types
  | noTarget {id : NodeId} {node : Node} (hnode : c.graph.node? id = some node)
      (hm : node.isReference = true) (ht : c.target? id = none) : HasTypes c id node.types
  | typed {id : NodeId} {node : Node} (hnode : c.graph.node? id = some node)
      (hm : node.meaning = .inline) (hne : node.types.isEmpty = false) : HasTypes c id node.types
  | union {id : NodeId} {node : Node} (hnode : c.graph.node? id = some node)
      (hm : node.meaning = .inline) (he : node.types.isEmpty = true) (types : NodeId → TypeSet)
      (hts : ∀ b ∈ branches node, HasTypes c b (types b))
      (hne : ∀ b ∈ branches node, (types b).isEmpty = false) :
      HasTypes c id (.ofList ((branches node).flatMap fun b => (types b).names))
  | unknownBranch {id b : NodeId} {node : Node} (hnode : c.graph.node? id = some node)
      (hm : node.meaning = .inline) (he : node.types.isEmpty = true) (hb : b ∈ branches node)
      (hts : HasTypes c b .empty) : HasTypes c id .empty

/-! ## One step of the recursion -/

/-- The types of a node from those of the nodes that its edges lead to. -/
def combine (c : Classifier) (types : NodeId → TypeSet) (id : NodeId) : TypeSet :=
  match c.graph.node? id with
  | none => .empty
  | some node =>
    match node.meaning with
    | .boolean _ => .empty
    | .inline =>
      if !node.types.isEmpty then node.types else unionOfKnown ((branches node).map types)
    | .reference _ | .dynamicReference _ =>
      let found := ((c.target? id).map types).getD .empty
      if found.isEmpty then node.types else found

theorem typesBelow_succ (c : Classifier) (fuel : Nat) (path : List NodeId) (id : NodeId) :
    c.typesBelow (fuel + 1) path id =
      if id ∈ path then .empty else c.combine (c.typesBelow fuel (id :: path)) id := by
  rw [typesBelow, combine]
  simp only [List.contains_iff_mem]
  congr 1
  cases c.graph.node? id with
  | none => rfl
  | some node =>
    dsimp only
    cases node.meaning <;> cases c.target? id <;> rfl

theorem typesBelow_of_mem (h : id ∈ path) : c.typesBelow fuel path id = .empty := by
  cases fuel with
  | zero => rfl
  | succ fuel => rw [typesBelow_succ, if_pos h]

theorem isReference_of_target? (h : c.target? id = some t) :
    ∃ node, c.graph.node? id = some node ∧ node.isReference = true := by
  rw [target?] at h
  cases hnode : c.graph.node? id with
  | none => rw [hnode] at h; cases h
  | some node =>
    refine ⟨node, rfl, ?_⟩
    rw [hnode, Option.map_some] at h
    cases hm : node.meaning <;> rw [hm] at h <;> simp_all [Node.isReference]

theorem edge_of_target? (h : c.target? id = some t) : c.Edge id t := by
  obtain ⟨node, hnode, hr⟩ := isReference_of_target? h
  cases hm : node.meaning <;> simp [Node.isReference, hm] at hr <;> simp [Edge, edges, hnode, hm, h]

section Cases

variable (hnode : c.graph.node? id = some node)
include hnode

theorem edge_of_mem_branches (hm : node.meaning = .inline) (he : node.types.isEmpty = true)
    (hb : b ∈ branches node) : c.Edge id b := by
  simpa [Edge, edges, hnode, hm, he] using hb

theorem combine_boolean {value : Bool} (hm : node.meaning = .boolean value)
    (types : NodeId → TypeSet) : c.combine types id = .empty := by
  simp [combine, hnode, hm]

theorem combine_typed (hm : node.meaning = .inline) (hne : node.types.isEmpty = false)
    (types : NodeId → TypeSet) : c.combine types id = node.types := by
  simp [combine, hnode, hm, hne]

theorem combine_untyped (hm : node.meaning = .inline) (he : node.types.isEmpty = true)
    (types : NodeId → TypeSet) :
    c.combine types id = unionOfKnown ((branches node).map types) := by
  simp [combine, hnode, hm, he]

theorem combine_reference (hm : node.isReference = true) (types : NodeId → TypeSet) :
    c.combine types id =
      if (((c.target? id).map types).getD .empty).isEmpty then node.types
      else ((c.target? id).map types).getD .empty := by
  cases h : node.meaning <;> simp [Node.isReference, h] at hm <;> simp [combine, hnode, h]

end Cases

/-- The types of a node depend on those of the nodes that its edges lead to. -/
theorem combine_congr {types types' : NodeId → TypeSet}
    (h : ∀ b, c.Edge id b → types b = types' b) : c.combine types id = c.combine types' id := by
  cases hnode : c.graph.node? id with
  | none => simp [combine, hnode]
  | some node =>
    cases hm : node.meaning with
    | boolean => rw [combine_boolean hnode hm, combine_boolean hnode hm]
    | inline =>
      cases he : node.types.isEmpty with
      | false => rw [combine_typed hnode hm he, combine_typed hnode hm he]
      | true =>
        rw [combine_untyped hnode hm he, combine_untyped hnode hm he,
          List.map_congr_left fun b hb => h b (edge_of_mem_branches hnode hm he hb)]
    | reference | dynamicReference =>
      have hr : node.isReference = true := by rw [Node.isReference, hm]
      rw [combine_reference hnode hr, combine_reference hnode hr]
      cases ht : c.target? id with
      | none => rfl
      | some t => rw [Option.map_some, Option.map_some, h t (edge_of_target? ht)]

/-! ## The nodes that are not on the path -/

/-- The number of nodes of the graph that are not on a path. -/
def unvisited (c : Classifier) (path : List NodeId) : Nat :=
  (c.graph.ids.filter (· ∉ path)).length

/-- The fuel for the types of a node suffices. -/
theorem unvisited_nil_lt (c : Classifier) : c.unvisited [] < c.graph.size + 1 := by
  have hall : c.graph.ids.filter (· ∉ []) = c.graph.ids := List.filter_eq_self.mpr (by simp)
  rw [unvisited, hall, Graph.ids, List.length_range]
  exact Nat.lt_succ_self _

theorem unvisited_cons_lt (hid : id < c.graph.size) (hpath : id ∉ path) :
    c.unvisited (id :: path) < c.unvisited path := by
  have hfilter : c.graph.ids.filter (· ∉ id :: path) =
      (c.graph.ids.filter (· ∉ path)).filter (· ≠ id) := by
    rw [List.filter_filter]
    exact List.filter_congr fun n _ => by simp [not_or]
  rw [unvisited, unvisited, hfilter, List.length_filter_lt_length_iff_exists]
  exact ⟨id, by simp [Graph.ids, hid, hpath], by simp⟩

theorem Edge.lt_size (h : c.Edge a b) : a < c.graph.size := by
  cases hnode : c.graph.node? a with
  | none => simp [Edge, edges, hnode] at h
  | some node => exact Graph.lt_size_of_node? hnode

/-- What is left of the fuel suffices after one more step. -/
theorem unvisited_step (h : c.Edge id b) (hpath : id ∉ path) (hfuel : c.unvisited path < fuel + 1) :
    c.unvisited (id :: path) < fuel := by
  have := unvisited_cons_lt h.lt_size hpath
  omega

/-! ## What the path says about nodes out of reach -/

/-- Two paths with the same nodes among those that can be reached give the same types. -/
theorem typesBelow_congr (hfuel : c.unvisited path < fuel) (hfuel' : c.unvisited path' < fuel')
    (hpath : ∀ n, ReflTransGen c.Edge id n → (n ∈ path ↔ n ∈ path')) :
    c.typesBelow fuel path id = c.typesBelow fuel' path' id := by
  induction fuel generalizing fuel' path path' id with
  | zero => omega
  | succ fuel ih =>
    obtain ⟨fuel', rfl⟩ : ∃ k, fuel' = k + 1 := ⟨fuel' - 1, by omega⟩
    rw [typesBelow_succ, typesBelow_succ]
    by_cases hid : id ∈ path
    · rw [if_pos hid, if_pos ((hpath id .refl).mp hid)]
    · have hid' : id ∉ path' := fun h => hid ((hpath id .refl).mpr h)
      rw [if_neg hid, if_neg hid']
      refine combine_congr fun b hb => ih (unvisited_step hb hid hfuel)
        (unvisited_step hb hid' hfuel') fun n hn => ?_
      rw [List.mem_cons, List.mem_cons, hpath n (.head hb hn)]

/-- A path of nodes out of reach goes unnoticed. -/
theorem typesBelow_eq_types (hfuel : c.unvisited path < fuel)
    (hpath : ∀ n ∈ path, ¬ ReflTransGen c.Edge id n) : c.typesBelow fuel path id = c.types id :=
  typesBelow_congr hfuel c.unvisited_nil_lt fun n hn =>
    ⟨fun h => absurd hn (hpath n h), fun h => absurd h List.not_mem_nil⟩

/-! ## Without a cycle in reach -/

theorem Acyclic.edge (h : c.Acyclic a) (hab : c.Edge a b) : c.Acyclic b :=
  fun n hn => h n (.head hab hn)

theorem Acyclic.not_reaches (h : c.Acyclic a) (hab : c.Edge a b) : ¬ ReflTransGen c.Edge b a :=
  fun hba => h a .refl (.head' hab hba)

/-- There is no cycle where every edge leads down. -/
theorem acyclic_of_lt {rank : NodeId → Nat} (h : ∀ a b, c.Edge a b → rank b < rank a) :
    c.Acyclic id := by
  intro n _ hcycle
  have hdown : ∀ {b}, TransGen c.Edge n b → rank b < rank n := by
    intro b hb
    induction hb with
    | single hb => exact h _ _ hb
    | tail _ hb ih => exact (h _ _ hb).trans ih
  exact Nat.lt_irrefl _ (hdown hcycle)

/-- Where no cycle can be reached, a node's types are combined from those of its successors. -/
theorem Acyclic.types_eq (h : c.Acyclic id) : c.types id = c.combine c.types id := by
  rw [types, typesBelow_succ, if_neg List.not_mem_nil]
  refine combine_congr fun b hb => typesBelow_eq_types ?_ ?_
  · exact unvisited_step hb List.not_mem_nil c.unvisited_nil_lt
  · intro n hn
    rw [List.mem_singleton.mp hn]
    exact h.not_reaches hb

theorem unionOfKnown_of_known {sets : List TypeSet} (h : ∀ s ∈ sets, s.isEmpty = false) :
    unionOfKnown sets = .ofList (sets.flatMap TypeSet.names) := by
  rw [unionOfKnown, if_neg (by simpa using h), TypeSet.foldl_union, TypeSet.ofList]

theorem unionOfKnown_of_unknown {sets : List TypeSet} (h : .empty ∈ sets) :
    unionOfKnown sets = .empty :=
  if_pos (List.any_eq_true.mpr ⟨.empty, h, rfl⟩)

theorem hasTypes_untyped (hnode : c.graph.node? id = some node) (hm : node.meaning = .inline)
    (he : node.types.isEmpty = true) {types : NodeId → TypeSet}
    (h : ∀ b ∈ branches node, c.HasTypes b (types b)) :
    c.HasTypes id (unionOfKnown ((branches node).map types)) := by
  by_cases hknown : ∃ b ∈ branches node, (types b).isEmpty = true
  · obtain ⟨b, hb, hempty⟩ := hknown
    rw [TypeSet.isEmpty_iff] at hempty
    rw [unionOfKnown_of_unknown (List.mem_map.mpr ⟨b, hb, hempty⟩)]
    exact .unknownBranch hnode hm he hb (hempty ▸ h b hb)
  · have hne : ∀ b ∈ branches node, (types b).isEmpty = false := by simpa using hknown
    rw [unionOfKnown_of_known (by simpa using hne), List.flatMap_map]
    exact .union hnode hm he types h hne

theorem hasTypes_reference (hnode : c.graph.node? id = some node) (hr : node.isReference = true)
    {types : NodeId → TypeSet} (h : ∀ t, c.target? id = some t → c.HasTypes t (types t)) :
    c.HasTypes id (c.combine types id) := by
  rw [combine_reference hnode hr]
  cases ht : c.target? id with
  | none => exact .noTarget hnode hr ht
  | some t =>
    rw [Option.map_some, Option.getD_some]
    cases hempty : (types t).isEmpty with
    | false => exact .target ht (h t ht) hempty
    | true => exact .unknownTarget hnode ht (TypeSet.isEmpty_iff.mp hempty ▸ h t ht)

/-- One step of the recursion without a path. -/
theorem hasTypes_combine {types : NodeId → TypeSet} (h : ∀ b, c.Edge id b → c.HasTypes b (types b)) :
    c.HasTypes id (c.combine types id) := by
  cases hnode : c.graph.node? id with
  | none =>
    rw [combine, hnode]
    exact .missing hnode
  | some node =>
    cases hm : node.meaning with
    | boolean =>
      rw [combine_boolean hnode hm]
      exact .boolean hnode hm
    | inline =>
      cases he : node.types.isEmpty with
      | false =>
        rw [combine_typed hnode hm he]
        exact .typed hnode hm he
      | true =>
        rw [combine_untyped hnode hm he]
        exact hasTypes_untyped hnode hm he fun b hb => h b (edge_of_mem_branches hnode hm he hb)
    | reference | dynamicReference =>
      exact hasTypes_reference hnode (by rw [Node.isReference, hm]) fun t ht =>
        h t (edge_of_target? ht)

theorem Acyclic.hasTypes_types (h : c.Acyclic id) : c.HasTypes id (c.types id) := by
  -- The induction is on the number of nodes off the way here: none on it can be reached again, so
  -- each step takes one more away.
  suffices ∀ fuel path, c.unvisited path < fuel → (∀ n ∈ path, ¬ ReflTransGen c.Edge id n) →
      c.HasTypes id (c.types id) from this _ [] (Nat.lt_succ_self _) (by simp)
  intro fuel
  induction fuel generalizing id with
  | zero => omega
  | succ fuel ih =>
    intro path hfuel hpath
    have hid : id ∉ path := fun hmem => hpath id hmem .refl
    rw [h.types_eq]
    refine hasTypes_combine fun b hb =>
      ih (h.edge hb) (id :: path) (unvisited_step hb hid hfuel) fun n hn hbn => ?_
    rcases List.mem_cons.mp hn with rfl | hn
    · exact h.not_reaches hb hbn
    · exact hpath n hn (.head hb hbn)

/-- The recursion without a path gives no other types. -/
theorem HasTypes.eq_types (hts : c.HasTypes id ts) (h : c.Acyclic id) : ts = c.types id := by
  induction hts with
  | missing hnode => simp [h.types_eq, combine, hnode]
  | boolean hnode hm => rw [h.types_eq, combine_boolean hnode hm]
  | target ht _ hne ih =>
    obtain ⟨node, hnode, hr⟩ := isReference_of_target? ht
    rw [h.types_eq, combine_reference hnode hr, ht, Option.map_some, Option.getD_some,
      ← ih (h.edge (edge_of_target? ht)), if_neg (by simp [hne])]
  | unknownTarget hnode ht _ ih =>
    obtain ⟨node', hnode', hr⟩ := isReference_of_target? ht
    cases hnode.symm.trans hnode'
    rw [h.types_eq, combine_reference hnode hr, ht, Option.map_some, Option.getD_some,
      ← ih (h.edge (edge_of_target? ht))]
    rfl
  | noTarget hnode hr ht =>
    rw [h.types_eq, combine_reference hnode hr, ht]
    rfl
  | typed hnode hm hne => rw [h.types_eq, combine_typed hnode hm hne]
  | @union id node hnode hm he types _ hne ih =>
    have htypes : ∀ b ∈ branches node, types b = c.types b := fun b hb =>
      ih b hb (h.edge (edge_of_mem_branches hnode hm he hb))
    rw [h.types_eq, combine_untyped hnode hm he, ← List.map_congr_left htypes,
      unionOfKnown_of_known (by simpa using hne), List.flatMap_map]
  | @unknownBranch id b node hnode hm he hb _ ih =>
    have hempty := ih (h.edge (edge_of_mem_branches hnode hm he hb))
    rw [h.types_eq, combine_untyped hnode hm he,
      unionOfKnown_of_unknown (List.mem_map.mpr ⟨b, hb, hempty.symm⟩)]

/-! ## References that lead back to themselves -/

/-- The types that a node declares itself. -/
def declared (c : Classifier) (id : NodeId) : TypeSet :=
  match c.graph.node? id with
  | some node => node.types
  | none => .empty

/-- The types that the last of some nodes declares, of those that declare any. -/
def lastDeclared (c : Classifier) (chain : List NodeId) : TypeSet :=
  ((chain.map c.declared).reverse.find? fun types => !types.isEmpty).getD .empty

theorem lastDeclared_cons (a : NodeId) (rest : List NodeId) : c.lastDeclared (a :: rest) =
    if (c.lastDeclared rest).isEmpty then c.declared a else c.lastDeclared rest := by
  rw [lastDeclared, lastDeclared, List.map_cons, List.reverse_cons, List.find?_append]
  cases hfind : (rest.map c.declared).reverse.find? fun types => !types.isEmpty with
  | some types =>
    have hne := List.find?_some hfind
    rw [Option.some_or, Option.getD_some, if_neg (by simpa using hne)]
  | none =>
    rw [Option.none_or, Option.getD_none]
    show _ = c.declared a
    cases hempty : (c.declared a).isEmpty with
    | false => simp [hempty]
    | true =>
      rw [TypeSet.isEmpty_iff.mp hempty]
      rfl

/-- Nodes that lead round: each refers to the next one, and the last one to one of them. -/
structure Circles (c : Classifier) (chain : List NodeId) : Prop where
  nodup : chain.Nodup
  follows : chain.IsChain fun a b => c.target? a = some b
  returns : ∃ last ∈ chain.getLast?, ∃ t ∈ chain, c.target? last = some t

theorem typesBelow_of_target? (hid : id ∉ path) (ht : c.target? id = some t) :
    c.typesBelow (fuel + 1) path id =
      if (c.typesBelow fuel (id :: path) t).isEmpty then c.declared id
      else c.typesBelow fuel (id :: path) t := by
  obtain ⟨node, hnode, hr⟩ := isReference_of_target? ht
  rw [typesBelow_succ, if_neg hid, combine_reference hnode hr, ht, Option.map_some,
    Option.getD_some, declared, hnode]

/-- References that lead to a node on the path have the last types declared among them. -/
theorem typesBelow_chain (hfuel : c.unvisited path < fuel) (hnodup : (a :: rest).Nodup)
    (hpath : ∀ n ∈ a :: rest, n ∉ path)
    (hfollows : (a :: rest).IsChain fun a b => c.target? a = some b)
    (hreturns : ∃ last ∈ (a :: rest).getLast?, ∃ t ∈ a :: rest ++ path, c.target? last = some t) :
    c.typesBelow fuel path a = c.lastDeclared (a :: rest) := by
  induction rest generalizing a path fuel with
  | nil =>
    obtain ⟨last, hlast, t, ht, htarget⟩ := hreturns
    cases hlast
    obtain _ | fuel := fuel
    · omega
    · have hback : c.typesBelow fuel (a :: path) t = .empty := typesBelow_of_mem (by simpa using ht)
      rw [typesBelow_of_target? (hpath a List.mem_cons_self) htarget, hback, lastDeclared_cons]
      rfl
  | cons b rest ih =>
    obtain ⟨htarget, hfollows⟩ := List.isChain_cons_cons.mp hfollows
    obtain ⟨ha, hnodup⟩ := List.nodup_cons.mp hnodup
    obtain ⟨last, hlast, t, ht, hreturn⟩ := hreturns
    have hid := hpath a List.mem_cons_self
    obtain _ | fuel := fuel
    · omega
    · have hnext : c.typesBelow fuel (a :: path) b = c.lastDeclared (b :: rest) := by
        refine ih (unvisited_step (edge_of_target? htarget) hid hfuel) hnodup ?_ hfollows
          ⟨last, by simpa using hlast, t, ?_, hreturn⟩
        · intro n hn hmem
          rcases List.mem_cons.mp hmem with rfl | hmem
          · exact ha hn
          · exact hpath n (List.mem_cons_of_mem a hn) hmem
        · simp only [List.mem_append, List.mem_cons] at ht ⊢
          grind
      rw [typesBelow_of_target? hid htarget, hnext, ← lastDeclared_cons]

/-- Nodes on the path that cannot be reached do not matter. Where no cycle can be reached, the types
are those of the recursion without a path, whatever nodes led to a node. References that lead round
have the types that the last of them declares. -/
theorem types_guarded (c : Classifier) (id : NodeId) :
    (∀ path fuel, (∀ n ∈ path, ¬ ReflTransGen c.Edge id n) → c.unvisited path < fuel →
      c.typesBelow fuel path id = c.types id) ∧
    (c.Acyclic id →
      (∀ ts, c.HasTypes id ts ↔ ts = c.types id) ∧
      ∀ n path fuel, ReflTransGen c.Edge id n →
        (∀ a ∈ path, ReflTransGen c.Edge id a ∧ TransGen c.Edge a n) → c.unvisited path < fuel →
          c.typesBelow fuel path n = c.types n) ∧
    ∀ rest, c.Circles (id :: rest) → c.types id = c.lastDeclared (id :: rest) := by
  refine ⟨fun path fuel hpath hfuel => typesBelow_eq_types hfuel hpath, fun h => ⟨fun ts => ?_, ?_⟩,
    fun rest hcircles => ?_⟩
  · constructor
    · exact fun hts => hts.eq_types h
    · rintro rfl
      exact h.hasTypes_types
  · intro n path fuel hn hpath hfuel
    refine typesBelow_eq_types hfuel fun a ha hna => ?_
    obtain ⟨hida, han⟩ := hpath a ha
    exact h a hida (.trans_left han hna)
  · obtain ⟨last, hlast, t, ht, hreturn⟩ := hcircles.returns
    exact typesBelow_chain c.unvisited_nil_lt hcircles.nodup (by simp) hcircles.follows
      ⟨last, hlast, t, by simpa using ht, hreturn⟩

/-- A schema with two branches that refer to the same definition. -/
def shared : Json.Value :=
  .object [("allOf", .array [.object [("$ref", .string "#/$defs/text")],
      .object [("$ref", .string "#/$defs/text")]]),
    ("$defs", .object [("text", .object [("type", .string "string")])])]

/-- A reference to two definitions that refer to each other. -/
def round : Json.Value :=
  .object [("$ref", .string "#/$defs/a"), ("$defs", .object [
    ("a", .object [("$ref", .string "#/$defs/b"), ("type", .string "string")]),
    ("b", .object [("$ref", .string "#/$defs/a"), ("type", .string "integer")])])]

/-- The classifier of a schema without dynamic scope. -/
def ofSchema (schema : Json.Value) : Classifier := { graph := (Graph.insert {} schema).2 }

theorem types_guarded_shared :
    (ofSchema shared).HasTypes 3 (.single "string") ∧
      (ofSchema shared).typesBelow 3 [0, 3] 2 = (ofSchema shared).types 2 ∧
      (ofSchema shared).typesBelow 3 [1, 3] 2 = (ofSchema shared).types 2 ∧
      (ofSchema round).types 2 = .single "integer" := by
  obtain ⟨hfree, -, -⟩ := types_guarded (ofSchema shared) 2
  obtain ⟨-, hacyclic, -⟩ := types_guarded (ofSchema shared) 3
  obtain ⟨-, -, hround⟩ := types_guarded (ofSchema round) 2
  have hrank : ∀ a < 4, ∀ b ∈ (ofSchema shared).edges a,
      [1, 1, 0, 2][b]! < [1, 1, 0, 2][a]! := by decide +kernel
  have hdown : (ofSchema shared).Acyclic 3 :=
    acyclic_of_lt fun a b hab => hrank a (hab.lt_size.trans_eq (by decide +kernel)) b hab
  obtain ⟨htypes, hway⟩ := hacyclic hdown
  have hone : (ofSchema shared).Edge 3 1 := by decide +kernel
  have htwo : (ofSchema shared).Edge 1 2 := by decide +kernel
  have hend : (ofSchema shared).edges 2 = [] := by decide +kernel
  refine ⟨?_, ?_, ?_, ?_⟩
  · exact (htypes _).mpr (by decide +kernel)
  · refine hfree [0, 3] 3 (fun n hn hreach => ?_) (by decide +kernel)
    obtain rfl | ⟨m, hm, -⟩ := hreach.cases_head
    · exact absurd hn (by decide)
    · rw [Edge, hend] at hm
      cases hm
  · refine hway 2 [1, 3] 3 (.head hone (.single htwo)) (fun n hn => ?_) (by decide +kernel)
    rcases List.mem_cons.mp hn with rfl | hn
    · exact ⟨.single hone, .single htwo⟩
    · rw [List.mem_singleton.mp hn]
      exact ⟨.refl, .head hone (.single htwo)⟩
  · have hcircles : (ofSchema round).Circles [2, 0, 1] :=
      { nodup := by decide
        follows := by
          simp only [List.isChain_cons_cons, List.isChain_singleton, and_true]
          decide +kernel
        returns := ⟨1, rfl, 0, by decide, by decide +kernel⟩ }
    rw [hround _ hcircles]
    decide +kernel

end Classifier

end OpenApi.Schema
