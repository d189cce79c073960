import OpenApi.Proofs.Schema.Preorder

/-!
# Walks through any graph

In a graph with shared subschemas and structural cycles a node may be pending several times before
it is visited. A walk visits the nodes nevertheless in the order of the recursion that takes the
subschemas of a node one after the other and passes over what was visited before.

* `Graph.DepthFirst`: that recursion, as a relation;
* `Graph.entriesLeft`: the subschema entries still to come, which bound the steps of a worklist;
* `Graph.depthFirst_walkFrom`: a worklist runs the recursion on its pending nodes;
* `Graph.Forest.walk_eq`: a walk through a tree gives its nodes in preorder;
* `Graph.depthFirst_walk`: the order, the nodes and the first node of a walk.
-/

namespace OpenApi.Schema.Graph

variable {g : Graph} {skip : NodeId → Bool} {a b c n p r root : NodeId}
  {seen seen' between order order' ids more : List NodeId}

/-! ## Depth-first order -/

/-- Visiting nodes one after the other leads from the nodes seen before to those seen after, in
the order of their first visits. A visit to a new node visits its subschemas in turn, unless the
node is skipped. -/
inductive DepthFirst (g : Graph) (skip : NodeId → Bool) :
    List NodeId → List NodeId → List NodeId → Prop
  | nil {seen : List NodeId} : DepthFirst g skip seen [] seen
  | again {id : NodeId} {seen seen' ids : List NodeId} : id ∈ seen →
    DepthFirst g skip seen ids seen' → DepthFirst g skip seen (id :: ids) seen'
  | absent {id : NodeId} {seen seen' ids : List NodeId} : g.size ≤ id →
    DepthFirst g skip seen ids seen' → DepthFirst g skip seen (id :: ids) seen'
  | visit {id : NodeId} {seen between seen' ids : List NodeId} : id ∉ seen → id < g.size →
    DepthFirst g skip (seen ++ [id]) (if skip id then [] else g.subschemas id) between →
    DepthFirst g skip between ids seen' → DepthFirst g skip seen (id :: ids) seen'

namespace DepthFirst

/-- The order is determined. -/
theorem unique (h : g.DepthFirst skip seen ids order) (h' : g.DepthFirst skip seen ids order') :
    order = order' := by
  induction h generalizing order' with
  | nil =>
    cases h'
    rfl
  | again hmem _ ih =>
    cases h' with
    | again _ h' => exact ih h'
    | absent _ h' => exact ih h'
    | visit hnew => exact absurd hmem hnew
  | absent hsize _ ih =>
    cases h' with
    | again _ h' => exact ih h'
    | absent _ h' => exact ih h'
    | visit _ hlt => exact absurd hlt (Nat.not_lt_of_le hsize)
  | visit hnew hlt _ _ ihBelow ih =>
    cases h' with
    | again hmem => exact absurd hmem hnew
    | absent hsize => exact absurd hlt (Nat.not_lt_of_le hsize)
    | visit _ _ hbelow h' =>
      obtain rfl := ihBelow hbelow
      exact ih h'

/-- Visiting two lists of nodes is visiting the first and then the second. -/
theorem of_append (h : g.DepthFirst skip seen (ids ++ more) order) :
    ∃ between, g.DepthFirst skip seen ids between ∧ g.DepthFirst skip between more order := by
  induction ids generalizing seen with
  | nil => exact ⟨seen, .nil, h⟩
  | cons id ids ih =>
    cases h with
    | again hmem h =>
      obtain ⟨between, hids, hmore⟩ := ih h
      exact ⟨between, .again hmem hids, hmore⟩
    | absent hsize h =>
      obtain ⟨between, hids, hmore⟩ := ih h
      exact ⟨between, .absent hsize hids, hmore⟩
    | visit hnew hlt hbelow h =>
      obtain ⟨between, hids, hmore⟩ := ih h
      exact ⟨between, .visit hnew hlt hbelow hids, hmore⟩

/-- What was seen before stays in front. -/
theorem isPrefix (h : g.DepthFirst skip seen ids order) : seen <+: order := by
  induction h with
  | nil => exact List.prefix_refl _
  | again _ _ ih => exact ih
  | absent _ _ ih => exact ih
  | visit _ _ _ _ ihBelow ih => exact (List.prefix_append _ _).trans (ihBelow.trans ih)

theorem nodup (h : g.DepthFirst skip seen ids order) (hseen : seen.Nodup) : order.Nodup := by
  induction h with
  | nil => exact hseen
  | again _ _ ih => exact ih hseen
  | absent _ _ ih => exact ih hseen
  | visit hnew _ _ _ ihBelow ih =>
    refine ih (ihBelow ?_)
    rw [← List.concat_eq_append]
    exact hseen.concat hnew

end DepthFirst

/-! ## Pruned reachability -/

/-- A node is reached from itself, and with a node that is not skipped its subschemas. -/
inductive ReachesPast (g : Graph) (skip : NodeId → Bool) (r : NodeId) : NodeId → Prop
  | refl : ReachesPast g skip r r
  | step {p c : NodeId} : ReachesPast g skip r p → skip p = false → c ∈ g.subschemas p →
    ReachesPast g skip r c

theorem ReachesPast.trans (h : g.ReachesPast skip a b) (h' : g.ReachesPast skip b c) :
    g.ReachesPast skip a c := by
  induction h' with
  | refl => exact h
  | step _ hskip hc ih => exact ih.step hskip hc

namespace DepthFirst

/-- What is visited is a node and reached from one of those that were to be visited. -/
theorem reached (h : g.DepthFirst skip seen ids order) (hn : n ∈ order) :
    n ∈ seen ∨ n < g.size ∧ ∃ id ∈ ids, g.ReachesPast skip id n := by
  induction h with
  | nil => exact .inl hn
  | again _ _ ih =>
    refine (ih hn).imp_right fun ⟨hlt, id, hid, hr⟩ => ⟨hlt, id, List.mem_cons_of_mem _ hid, hr⟩
  | absent _ _ ih =>
    refine (ih hn).imp_right fun ⟨hlt, id, hid, hr⟩ => ⟨hlt, id, List.mem_cons_of_mem _ hid, hr⟩
  | @visit id seen between seen' ids _ hlt _ _ ihBelow ih =>
    rcases ih hn with hn | ⟨hsize, id', hid, hr⟩
    · rcases ihBelow hn with hn | ⟨hsize, c, hc, hr⟩
      · rcases List.mem_append.mp hn with hn | hn
        · exact .inl hn
        · rw [List.mem_singleton.mp hn]
          exact .inr ⟨hlt, id, List.mem_cons_self, .refl⟩
      · cases hskip : skip id with
        | true => simp [hskip] at hc
        | false =>
          simp only [hskip, Bool.false_eq_true, ↓reduceIte] at hc
          have hstep : g.ReachesPast skip id c := .step .refl hskip hc
          exact .inr ⟨hsize, id, List.mem_cons_self, hstep.trans hr⟩
    · exact .inr ⟨hsize, id', List.mem_cons_of_mem _ hid, hr⟩

/-- Every node that was to be visited is. -/
theorem mem_of_mem (h : g.DepthFirst skip seen ids order) (hn : n ∈ ids) (hlt : n < g.size) :
    n ∈ order := by
  induction h with
  | nil => cases hn
  | again hmem h ih =>
    rcases List.mem_cons.mp hn with rfl | hn
    · exact h.isPrefix.subset hmem
    · exact ih hn
  | absent hsize _ ih =>
    rcases List.mem_cons.mp hn with rfl | hn
    · exact absurd hlt (Nat.not_lt_of_le hsize)
    · exact ih hn
  | @visit id seen between seen' ids _ _ hbelow h _ ih =>
    rcases List.mem_cons.mp hn with rfl | hn
    · exact (hbelow.isPrefix.trans h.isPrefix).subset (by simp)
    · exact ih hn

/-- With a new node that is not skipped all its subschemas are visited. -/
theorem closed (h : g.DepthFirst skip seen ids order) (hn : n ∈ order) (hnew : n ∉ seen)
    (hskip : skip n = false) (hc : c ∈ g.subschemas n) (hlt : c < g.size) : c ∈ order := by
  induction h with
  | nil => exact absurd hn hnew
  | again _ _ ih => exact ih hn hnew
  | absent _ _ ih => exact ih hn hnew
  | @visit id seen between seen' ids _ _ hbelow h ihBelow ih =>
    by_cases hbetween : n ∈ between
    · refine h.isPrefix.subset ?_
      by_cases hid : n = id
      · subst hid
        rw [hskip, if_neg Bool.false_ne_true] at hbelow
        exact hbelow.mem_of_mem hc hlt
      · exact ihBelow hbetween (by simp [hnew, hid])
    · exact ih hn hbetween

end DepthFirst

/-! ## The bound on steps -/

/-- The number of subschema entries of the nodes that are not seen. -/
def entriesLeft (g : Graph) (seen : NodeId → Bool) : Nat :=
  ((g.ids.filter fun id => !seen id).flatMap g.subschemas).length

/-- At first all entries are left. -/
theorem entriesLeft_none : g.entriesLeft (fun _ => false) = g.edgeCount := by
  have hentries : g.ids.map g.subschemas = g.nodes.toList.map Node.subschemas := by
    refine List.ext_getElem? fun i => ?_
    have hlist : g.nodes.toList[i]? = g.nodes[i]? := Array.getElem?_toList
    rw [List.getElem?_map, List.getElem?_map, ids, hlist]
    by_cases hi : i < g.size
    · obtain ⟨node, hnode, hsubs⟩ := node?_of_lt hi
      rw [node?] at hnode
      rw [List.getElem?_range hi, hnode, Option.map_some, Option.map_some, hsubs]
    · have hnone : g.nodes[i]? = none := Array.getElem?_eq_none (Nat.le_of_not_lt hi)
      rw [hnone, List.getElem?_eq_none (by simpa using Nat.le_of_not_lt hi)]
      rfl
  have hall : (g.ids.filter fun _ => !false) = g.ids := List.filter_eq_self.mpr fun _ _ => rfl
  rw [entriesLeft, hall, edgeCount, List.flatMap_def, List.flatMap_def, hentries]

/-- A visit takes away the entries of its node. -/
theorem entriesLeft_visit {seen : NodeId → Bool} (hn : n < g.size) (hseen : seen n = false) :
    g.entriesLeft seen =
      (g.subschemas n).length + g.entriesLeft (fun m => m == n || seen m) := by
  have hnodup : (g.ids.filter fun id => !seen id).Nodup := List.nodup_range.filter _
  have hmem : n ∈ g.ids.filter fun id => !seen id := by
    rw [List.mem_filter, ids, List.mem_range]
    exact ⟨hn, by rw [hseen]; rfl⟩
  have hrest : (g.ids.filter fun id => !seen id).erase n =
      g.ids.filter fun id => !(id == n || seen id) := by
    rw [hnodup.erase_eq_filter, List.filter_filter]
    refine List.filter_congr fun id _ => ?_
    rw [Bool.not_or, bne]
  have hperm := (List.perm_cons_erase hmem).flatMap_right g.subschemas
  rw [entriesLeft, hperm.length_eq, hrest, List.flatMap_cons, List.length_append, entriesLeft]

/-! ## The worklist -/

/-- A worklist with enough steps left visits the pending nodes as the recursion does. -/
theorem depthFirst_walkFrom (fuel : Nat) (visited pending : List NodeId)
    (hfuel : pending.length + g.entriesLeft visited.contains ≤ fuel) :
    g.DepthFirst skip visited.reverse pending
      (g.walkFrom skip fuel visited pending).reverse := by
  induction fuel generalizing visited pending with
  | zero =>
    obtain rfl : pending = [] := List.eq_nil_of_length_eq_zero (by omega)
    exact .nil
  | succ fuel ih =>
    cases pending with
    | nil => exact .nil
    | cons id pending =>
      rw [List.length_cons] at hfuel
      rw [walkFrom]
      cases hseen : visited.contains id with
      | true =>
        rw [if_pos rfl]
        have hmem : id ∈ visited.reverse := by simpa using hseen
        exact .again hmem (ih visited pending (by omega))
      | false =>
        rw [if_neg Bool.false_ne_true]
        by_cases hlt : id < g.size
        · obtain ⟨node, hnode, hsubs⟩ := node?_of_lt hlt
          simp only [hnode, ← hsubs]
          have hleft := entriesLeft_visit hlt hseen
          have hcontains : (id :: visited).contains = fun m => m == id || visited.contains m :=
            funext fun m => List.contains_cons
          -- The recursion takes the subschemas off the front of the list first.
          have hrun : g.DepthFirst skip (visited.reverse ++ [id])
              ((if skip id then [] else g.subschemas id) ++ pending)
              (g.walkFrom skip fuel (id :: visited)
                (if skip id then pending else g.subschemas id ++ pending)).reverse := by
            rw [← List.reverse_cons]
            cases hskip : skip id with
            | true =>
              refine ih (id :: visited) pending ?_
              rw [hcontains]
              omega
            | false =>
              refine ih (id :: visited) (g.subschemas id ++ pending) ?_
              rw [hcontains, List.length_append]
              omega
          obtain ⟨between, hbelow, hrest⟩ := hrun.of_append
          exact .visit (by simpa using hseen) hlt hbelow hrest
        · have hnone : g.node? id = none := Array.getElem?_eq_none (Nat.le_of_not_lt hlt)
          simp only [hnone]
          exact .absent (Nat.le_of_not_lt hlt) (ih visited pending (by omega))

/-! ## Walks -/

theorem depthFirst_of_walk (g : Graph) (skip : NodeId → Bool) (root : NodeId) :
    g.DepthFirst skip [] [root] (g.walk skip root) := by
  refine depthFirst_walkFrom (g.edgeCount + 2) [] [root] ?_
  have hstart : g.entriesLeft ([] : List NodeId).contains = g.edgeCount := entriesLeft_none
  rw [hstart, List.length_singleton]
  omega

/-- The nodes of a walk are those reached past nodes that are not skipped. -/
theorem mem_walk_iff : n ∈ g.walk skip root ↔ n < g.size ∧ g.ReachesPast skip root n := by
  have hwalk := g.depthFirst_of_walk skip root
  constructor
  · intro hn
    obtain ⟨hlt, id, hid, hr⟩ := (hwalk.reached hn).resolve_left List.not_mem_nil
    rw [List.mem_singleton.mp hid] at hr
    exact ⟨hlt, hr⟩
  · rintro ⟨hlt, hr⟩
    induction hr with
    | refl => exact hwalk.mem_of_mem (List.mem_singleton_self root) hlt
    | step _ hskip hc ih =>
      exact hwalk.closed (ih (lt_size_of_mem_subschemas hc)) List.not_mem_nil hskip hc hlt

/-- If the recursion visits each of some disjoint trees as a whole, it visits one after the
other. -/
theorem DepthFirst.of_trees {tree : NodeId → List NodeId}
    (hcons : ∀ c ∈ ids, ∀ {seen more order : List NodeId}, (∀ m ∈ tree c, m ∉ seen) →
      g.DepthFirst skip (seen ++ tree c) more order → g.DepthFirst skip seen (c :: more) order)
    (hnodup : (ids.flatMap tree).Nodup) (hnew : ∀ m ∈ ids.flatMap tree, m ∉ seen) :
    g.DepthFirst skip seen ids (seen ++ ids.flatMap tree) := by
  induction ids generalizing seen with
  | nil =>
    rw [List.flatMap_nil, List.append_nil]
    exact .nil
  | cons c ids ih =>
    rw [List.forall_mem_cons] at hcons
    rw [List.flatMap_cons] at hnodup hnew ⊢
    obtain ⟨-, hrest, hapart⟩ := List.nodup_append.mp hnodup
    refine hcons.1 (fun m hm => hnew m (List.mem_append_left _ hm)) ?_
    rw [← List.append_assoc]
    refine ih hcons.2 hrest fun m hm hmem => ?_
    obtain hmem | hmem := List.mem_append.mp hmem
    · exact hnew m (List.mem_append_right _ hm) hmem
    · exact hapart m hmem m hm rfl

/-- In a forest the recursion visits a tree that was not seen as a whole. -/
theorem Forest.depthFirst_cons (hf : Forest g) (hlt : n < g.size)
    (hnew : ∀ m ∈ g.visits skip n, m ∉ seen)
    (hmore : g.DepthFirst skip (seen ++ g.visits skip n) more order) :
    g.DepthFirst skip seen (n :: more) order := by
  induction n using hf.downward generalizing seen more order with
  | node n ih =>
    have hvisits := hf.visits_eq skip n
    have hnodup : (g.visits skip n).Nodup := hf.nodup_visits n
    refine .visit (hnew n (by rw [hvisits]; exact List.mem_cons_self)) hlt ?_ hmore
    cases hskip : skip n with
    | true =>
      rw [hskip, if_pos rfl] at hvisits
      rw [if_pos rfl, hvisits]
      exact .nil
    | false =>
      rw [hskip, if_neg Bool.false_ne_true] at hvisits
      rw [hvisits, List.nodup_cons] at hnodup
      have happend := List.append_cons seen n ((g.subschemas n).flatMap (g.visits skip))
      rw [if_neg Bool.false_ne_true, hvisits, happend]
      refine .of_trees (fun c hc => ih c hc (hf.lt_size_of_mem_subschemas hc)) hnodup.2 ?_
      intro m hm hmem
      obtain hmem | hmem := List.mem_append.mp hmem
      · exact hnew m (by rw [hvisits]; exact List.mem_cons_of_mem _ hm) hmem
      · exact hnodup.1 (List.mem_singleton.mp hmem ▸ hm)

/-- A walk through a tree gives its visits. -/
theorem Forest.walk_eq (hf : Forest g) (hr : r < g.size) : g.walk skip r = g.visits skip r := by
  have hvisits : g.DepthFirst skip [] [r] (g.visits skip r) :=
    hf.depthFirst_cons hr (fun _ _ => List.not_mem_nil) .nil
  exact (g.depthFirst_of_walk skip r).unique hvisits

/-- A walk visits the nodes in the order of the recursion, each once and the root first: those that
are reached from the root past nodes that are not skipped. -/
theorem depthFirst_walk (hroot : root < g.size) :
    (∀ order, g.DepthFirst skip [] [root] order ↔ order = g.walk skip root) ∧
      (g.walk skip root).Nodup ∧ (g.walk skip root).head? = some root ∧
      ∀ n, n ∈ g.walk skip root ↔ n < g.size ∧ g.ReachesPast skip root n := by
  have hwalk := g.depthFirst_of_walk skip root
  refine ⟨fun order => ⟨fun h => h.unique hwalk, fun h => h ▸ hwalk⟩, hwalk.nodup .nil, ?_,
    fun n => mem_walk_iff⟩
  cases hwalk with
  | again hmem => cases hmem
  | absent hsize => exact absurd hroot (Nat.not_lt_of_le hsize)
  | visit _ _ hbelow hrest =>
    obtain ⟨rest, hrest⟩ := hbelow.isPrefix.trans hrest.isPrefix
    rw [← hrest]
    rfl

/-- A node with the given subschemas under `allOf`. -/
def conjunction (ids : List NodeId) : Node := { list := update (fun _ => []) .allOf ids }

/-- A graph with structural cycles and shared subschemas: the first two nodes hold each other and
both hold the third one, which alone holds the last and opens a resource. -/
def tangle : Graph :=
  let g : Graph := (List.replicate 5 ({} : Node)).foldl (fun g node => (g.push node).2) {}
  let inner := { conjunction [4, 0] with text := update (fun _ => none) .id (some "inner") }
  let g := (g.setNode 0 (conjunction [1, 2])).setNode 1 (conjunction [2, 3, 0])
  (g.setNode 2 inner).setNode 4 (conjunction [1, 4])

theorem depthFirst_walk_tangle : 0 < tangle.size ∧
    (∀ order, tangle.DepthFirst (· == 2) [] [0] order ↔ order = [0, 1, 2, 3]) ∧
      ∀ n, n ∈ [0, 1, 2, 3] ↔ n < tangle.size ∧ tangle.ReachesPast (· == 2) 0 n := by
  have hroot : 0 < tangle.size := by decide
  have hwalk : tangle.walk (· == 2) 0 = [0, 1, 2, 3] := by decide +kernel
  obtain ⟨horder, -, -, hmem⟩ := @depthFirst_walk tangle (· == 2) 0 hroot
  rw [hwalk] at horder hmem
  exact ⟨hroot, horder, hmem⟩

end OpenApi.Schema.Graph
