import OpenApi.Schema.Graph

/-!
# Forests of schemas

Graphs whose nodes form a forest: a subschema has a lesser number than the schema that holds it,
stands in one place only and has that schema as its parent.

* `Graph.Forest.push`: pushing a node over distinct nodes without parents keeps a forest;
* `Graph.Grows.push`: if those nodes are new since an earlier graph, that graph stays.
-/

namespace OpenApi.Schema

namespace Graph

variable {g g' : Graph} {node : Node} {id i : NodeId}

/-! ## Pushing -/

theorem size_push (g : Graph) (node : Node) : (g.push node).2.size = g.size + 1 := by
  simp [push, size]

theorem node?_push (g : Graph) (node : Node) (i : NodeId) :
    (g.push node).2.node? i = if i = g.size then some node else g.node? i := by
  show (g.nodes.push node)[i]? = if i = g.nodes.size then some node else g.nodes[i]?
  rw [Array.getElem?_push]

theorem lt_size_of_node? (h : g.node? i = some node) : i < g.size := by
  rw [node?, Array.getElem?_eq_some_iff] at h
  exact h.1

theorem size_adopt (parents : Array (Option NodeId)) (id : NodeId) (children : List NodeId) :
    (adopt parents id children).size = parents.size := by
  rw [adopt]
  induction children generalizing parents with
  | nil => rfl
  | cons child children ih =>
    rw [List.foldl_cons, ih]
    split <;> simp

/-- Adopting gives a parent to those children that had none. -/
theorem getElem?_adopt (parents : Array (Option NodeId)) (id : NodeId) (children : List NodeId)
    (i : NodeId) : (adopt parents id children)[i]? =
      if i ∈ children ∧ parents[i]? = some none then some (some id) else parents[i]? := by
  rw [adopt]
  induction children generalizing parents with
  | nil => simp
  | cons child children ih =>
    rw [List.foldl_cons, ih]
    by_cases hc : parents[child]? = some none
    · rw [if_pos hc, Array.getElem?_setIfInBounds]
      by_cases hi : child = i
      · subst hi
        simp only [↓reduceIte, (Array.getElem?_eq_some_iff.mp hc).1, Option.some.injEq,
          reduceCtorEq, and_false, hc, List.mem_cons, true_or, and_self]
      · simp [hi, Ne.symm hi]
    · rw [if_neg hc]
      by_cases hi : child = i
      · subst hi
        simp [hc]
      · simp [Ne.symm hi]

theorem parent?_push (h : g.parents.size = g.size) (node : Node) (i : NodeId) :
    (g.push node).2.parent? i =
      if i < g.size ∧ i ∈ node.subschemas ∧ g.parent? i = none then some g.size
      else g.parent? i := by
  have hp : (g.push node).2.parent? i =
      ((adopt g.parents g.size node.subschemas).push none)[i]?.join := rfl
  rw [hp, Array.getElem?_push, size_adopt, h, getElem?_adopt]
  by_cases hi : i < g.size
  · have hne : i ≠ g.size := Nat.ne_of_lt hi
    rw [if_neg hne]
    have hget : g.parents[i]? = some (g.parent? i) := by
      rw [parent?, Array.getElem?_eq_getElem (h ▸ hi)]
      rfl
    rw [hget]
    simp only [hi, true_and, Option.some.injEq]
    split <;> rfl
  · have hnone : g.parents[i]? = none := by
      rw [Array.getElem?_eq_none_iff, h]
      exact Nat.le_of_not_lt hi
    have hpar : g.parent? i = none := by rw [parent?, hnone]; rfl
    simp only [hi, hpar, hnone, false_and, reduceCtorEq, and_false, ↓reduceIte]
    split <;> rfl

/-! ## Growth -/

/-- The nodes of a graph stay in another. -/
structure Keeps (g g' : Graph) : Prop where
  size : g.size ≤ g'.size
  node? : ∀ i < g.size, g'.node? i = g.node? i

theorem Keeps.refl (g : Graph) : Keeps g g := ⟨Nat.le_refl _, fun _ _ => rfl⟩

theorem Keeps.trans {g₁ g₂ g₃ : Graph} (h : Keeps g₁ g₂) (h' : Keeps g₂ g₃) : Keeps g₁ g₃ where
  size := Nat.le_trans h.size h'.size
  node? i hi := (h'.node? i (Nat.lt_of_lt_of_le hi h.size)).trans (h.node? i hi)

theorem Keeps.node?_eq_some (h : Keeps g g') (hn : g.node? i = some node) :
    g'.node? i = some node :=
  (h.node? i (lt_size_of_node? hn)).trans hn

theorem Keeps.push (g : Graph) (node : Node) : Keeps g (g.push node).2 where
  size := by
    rw [size_push]
    exact Nat.le_succ _
  node? i hi := by
    rw [node?_push, if_neg (Nat.ne_of_lt hi)]

/-- A graph becomes another by loading: what is there stays, with its parents. -/
structure Grows (g g' : Graph) : Prop extends Keeps g g' where
  parent? : ∀ i < g.size, g'.parent? i = g.parent? i
  roots : g'.roots = g.roots
  named : g'.named = g.named

theorem Grows.refl (g : Graph) : Grows g g := ⟨.refl g, fun _ _ => rfl, rfl, rfl⟩

theorem Grows.trans {g₁ g₂ g₃ : Graph} (h : Grows g₁ g₂) (h' : Grows g₂ g₃) : Grows g₁ g₃ where
  toKeeps := h.toKeeps.trans h'.toKeeps
  parent? i hi := (h'.parent? i (Nat.lt_of_lt_of_le hi h.size)).trans (h.parent? i hi)
  roots := h'.roots.trans h.roots
  named := h'.named.trans h.named

/-- Pushing a node whose subschemas are not in an earlier graph keeps that graph. -/
theorem Grows.push (h : Grows g g') (hs : g'.parents.size = g'.size)
    (hnew : ∀ c ∈ node.subschemas, g.size ≤ c) : Grows g (g'.push node).2 where
  toKeeps := h.toKeeps.trans (.push g' node)
  parent? i hi := by
    rw [parent?_push hs, if_neg, h.parent? i hi]
    rintro ⟨-, hc, -⟩
    exact Nat.not_lt_of_le (hnew i hc) hi
  roots := h.roots
  named := h.named

/-! ## Forests -/

/-- Subschemas have lesser numbers than what holds them, which is their parent, and nothing else
is. -/
structure Forest (g : Graph) : Prop where
  size_parents : g.parents.size = g.size
  lt : ∀ {p c}, c ∈ g.subschemas p → c < p
  nodup : ∀ p, (g.subschemas p).Nodup
  parent?_eq_some_iff : ∀ {c p}, g.parent? c = some p ↔ c ∈ g.subschemas p

theorem Forest.empty : Forest {} where
  size_parents := rfl
  lt h := by simp [subschemas, node?] at h
  nodup p := by simp [subschemas, node?]
  parent?_eq_some_iff := by simp [subschemas, node?, parent?]

theorem subschemas_push (g : Graph) (node : Node) (i : NodeId) :
    (g.push node).2.subschemas i = if i = g.size then node.subschemas else g.subschemas i := by
  simp only [subschemas, node?_push]
  by_cases hi : i = g.size
  · rw [if_pos hi, if_pos hi]
  · rw [if_neg hi, if_neg hi]

theorem lt_size_of_mem_subschemas {p c : NodeId} (h : c ∈ g.subschemas p) : p < g.size := by
  rw [subschemas] at h
  split at h
  · rename_i n hn
    exact lt_size_of_node? hn
  · cases h

/-- Pushing a node over distinct nodes without parents keeps a forest. -/
theorem Forest.push (h : Forest g) (hlt : ∀ c ∈ node.subschemas, c < g.size)
    (hfree : ∀ c ∈ node.subschemas, g.parent? c = none) (hnodup : node.subschemas.Nodup) :
    Forest (g.push node).2 where
  size_parents := by
    rw [size_push, ← h.size_parents]
    simp [Graph.push, size_adopt]
  lt {p c} hc := by
    rw [subschemas_push] at hc
    split at hc
    · rename_i hp
      exact hp ▸ hlt c hc
    · exact h.lt hc
  nodup p := by
    rw [subschemas_push]
    split
    · exact hnodup
    · exact h.nodup p
  parent?_eq_some_iff {c p} := by
    rw [parent?_push h.size_parents, subschemas_push]
    by_cases hc : c ∈ node.subschemas
    · rw [if_pos ⟨hlt c hc, hc, hfree c hc⟩]
      by_cases hp : p = g.size
      · simp [hp, hc]
      · rw [if_neg hp, ← h.parent?_eq_some_iff, hfree c hc]
        simp [Ne.symm hp]
    · rw [if_neg (fun hn => hc hn.2.1), h.parent?_eq_some_iff]
      by_cases hp : p = g.size
      · subst hp
        rw [if_pos rfl]
        exact ⟨fun hs => absurd (lt_size_of_mem_subschemas hs) (Nat.lt_irrefl _),
          fun hs => absurd hs hc⟩
      · rw [if_neg hp]

theorem Forest.parent?_eq_none (h : Forest g) (hi : g.size ≤ i) : g.parent? i = none := by
  rw [parent?, Array.getElem?_eq_none (by rw [h.size_parents]; exact hi)]
  rfl

end Graph

end OpenApi.Schema
