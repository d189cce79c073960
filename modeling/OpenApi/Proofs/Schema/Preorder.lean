import Mathlib.Data.List.Nodup
import OpenApi.Proofs.Schema.Lineage
import OpenApi.Schema.Traversal

/-!
# The trees of a forest

* `Graph.visits`, `Graph.preorder`: the nodes of a tree, a node before its subschemas, with nothing
  below skipped nodes;
* `Graph.Forest.mem_preorder_iff`, `Graph.Forest.nodup_visits`: a node is listed once, in the trees
  of the nodes that reach it;
* `Graph.Forest.length_visits_le`: a tree has one node more than the graph has subschema entries at
  most.
-/

namespace OpenApi.Schema.Graph

variable {g : Graph} {skip : NodeId → Bool} {a b c d m n p r : NodeId}

/-! ## Visits by recursion -/

/-- A node and what lies below it by the given number of levels, nothing below skipped nodes. -/
def visitsFrom (g : Graph) (skip : NodeId → Bool) : Nat → NodeId → List NodeId
  | 0, id => [id]
  | fuel + 1, id =>
    id :: if skip id then [] else (g.subschemas id).flatMap (g.visitsFrom skip fuel)

/-- A node and what lies below it, nothing below skipped nodes. Numbers decrease from level to
level. -/
def visits (g : Graph) (skip : NodeId → Bool) (id : NodeId) : List NodeId :=
  g.visitsFrom skip id id

/-- All nodes of the tree below a node, a node before its subschemas and those in traversal
order. -/
def preorder (g : Graph) (id : NodeId) : List NodeId := g.visits (fun _ => false) id

/-- Induction from subschemas to the schema that holds them. -/
theorem Forest.downward (hf : Forest g) {motive : NodeId → Prop}
    (node : ∀ n, (∀ c ∈ g.subschemas n, motive c) → motive n) (n : NodeId) : motive n :=
  Nat.strongRecOn n fun n ih => node n fun c hc => ih c (hf.lt hc)

theorem Forest.visitsFrom_congr (hf : Forest g) (fuel fuel' : Nat) (n : NodeId) (h : n ≤ fuel)
    (h' : n ≤ fuel') : g.visitsFrom skip fuel n = g.visitsFrom skip fuel' n := by
  induction n using hf.downward generalizing fuel fuel' with
  | node n ih =>
    have leaf : n = 0 → g.subschemas n = [] := by
      intro hn
      refine List.eq_nil_iff_forall_not_mem.mpr fun c hc => ?_
      exact Nat.not_lt_zero c (hn ▸ hf.lt hc)
    cases fuel with
    | zero =>
      have hn := leaf (Nat.le_zero.mp h)
      cases fuel' <;> simp [visitsFrom, hn]
    | succ fuel =>
      cases fuel' with
      | zero =>
        have hn := leaf (Nat.le_zero.mp h')
        simp [visitsFrom, hn]
      | succ fuel' =>
        rw [visitsFrom, visitsFrom]
        congr 2
        refine List.flatMap_congr fun c hc => ih c hc fuel fuel' ?_ ?_
        · exact Nat.le_of_lt_succ (Nat.lt_of_lt_of_le (hf.lt hc) h)
        · exact Nat.le_of_lt_succ (Nat.lt_of_lt_of_le (hf.lt hc) h')

theorem Forest.visits_eq (hf : Forest g) (skip : NodeId → Bool) (n : NodeId) :
    g.visits skip n = n :: if skip n then [] else (g.subschemas n).flatMap (g.visits skip) := by
  rw [visits, hf.visitsFrom_congr n (n + 1) n (Nat.le_refl n) (Nat.le_succ n), visitsFrom]
  congr 2
  refine List.flatMap_congr fun c hc => ?_
  exact hf.visitsFrom_congr n c c (Nat.le_of_lt (hf.lt hc)) (Nat.le_refl c)

theorem Forest.preorder_eq (hf : Forest g) (n : NodeId) :
    g.preorder n = n :: (g.subschemas n).flatMap g.preorder :=
  hf.visits_eq (fun _ => false) n

theorem Forest.reaches_of_mem_visits (hf : Forest g) (h : m ∈ g.visits skip n) :
    g.Reaches n m := by
  induction n using hf.downward with
  | node n ih =>
    rw [hf.visits_eq, List.mem_cons] at h
    obtain rfl | h := h
    · exact .refl
    · split at h
      · cases h
      · obtain ⟨c, hc, hm⟩ := List.mem_flatMap.mp h
        exact (Reaches.refl.step hc).trans (ih c hc hm)

/-- The tree of a node below another is a part of the other's without gaps. -/
theorem Forest.preorder_infix (hf : Forest g) (h : g.Reaches a b) :
    g.preorder b <:+: g.preorder a := by
  induction h with
  | refl => exact List.infix_refl _
  | @step p c _ hc ih =>
    refine List.IsInfix.trans ?_ ih
    rw [hf.preorder_eq p]
    exact List.infix_cons (List.infix_flatMap_of_mem hc g.preorder)

theorem Forest.mem_preorder_iff (hf : Forest g) : m ∈ g.preorder n ↔ g.Reaches n m := by
  refine ⟨hf.reaches_of_mem_visits, fun h => (hf.preorder_infix h).subset ?_⟩
  rw [hf.preorder_eq]
  exact List.mem_cons_self

/-- No node is visited twice. -/
theorem Forest.nodup_visits (hf : Forest g) (n : NodeId) : (g.visits skip n).Nodup := by
  induction n using hf.downward with
  | node n ih =>
    rw [hf.visits_eq]
    split
    · exact List.nodup_singleton n
    · refine List.nodup_cons.mpr ⟨fun hn => ?_, List.nodup_flatMap.mpr ⟨ih, ?_⟩⟩
      · obtain ⟨c, hc, hm⟩ := List.mem_flatMap.mp hn
        exact Nat.not_lt_of_le ((hf.reaches_of_mem_visits hm).le hf) (hf.lt hc)
      · refine (hf.nodup n).imp_of_mem fun {c d} hc hd hne => ?_
        intro m hcm hdm
        exact hne (Reaches.eq_of_siblings hf hc hd (hf.reaches_of_mem_visits hcm)
          (hf.reaches_of_mem_visits hdm))

/-! ## The number of visits -/

/-- Everything reached from a node but itself is a subschema entry of some node. -/
theorem Reaches.mem_entries (h : g.Reaches a b) :
    b = a ∨ b ∈ g.nodes.toList.flatMap Node.subschemas := by
  cases h with
  | refl => exact .inl rfl
  | @step p _ _ hc =>
    rw [subschemas] at hc
    split at hc
    · rename_i node hn
      refine .inr (List.mem_flatMap.mpr ⟨node, ?_, hc⟩)
      exact Array.mem_toList_iff.mpr (Array.mem_of_getElem? hn)
    · cases hc

theorem Forest.length_visits_le (hf : Forest g) (n : NodeId) :
    (g.visits skip n).length ≤ g.edgeCount + 1 := by
  have hsub : g.visits skip n ⊆ n :: g.nodes.toList.flatMap Node.subschemas := by
    intro m hm
    exact List.mem_cons.mpr (hf.reaches_of_mem_visits hm).mem_entries
  have hle := (hf.nodup_visits n).length_le_of_subset hsub
  rwa [List.length_cons] at hle

/-! ## Nodes of the graph -/

theorem node?_of_lt (h : n < g.size) :
    ∃ node, g.node? n = some node ∧ g.subschemas n = node.subschemas := by
  refine ⟨g.nodes[n], Array.getElem?_eq_getElem h, ?_⟩
  rw [subschemas, node?, Array.getElem?_eq_getElem h]

theorem Forest.lt_size_of_mem_subschemas (hf : Forest g) (h : c ∈ g.subschemas p) : c < g.size :=
  Nat.lt_trans (hf.lt h) (Graph.lt_size_of_mem_subschemas h)

end OpenApi.Schema.Graph
