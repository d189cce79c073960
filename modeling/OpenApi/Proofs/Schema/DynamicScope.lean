import OpenApi.Proofs.OrderedMap
import OpenApi.Proofs.Percent
import OpenApi.Proofs.Result
import OpenApi.Proofs.Schema.DepthFirst
import OpenApi.Proofs.Schema.Extension
import OpenApi.Proofs.Text
import OpenApi.Schema.DynamicScope

/-!
# Dynamic references follow the nesting of resources

* `Graph.Forest.resourceNodes_eq`: the nodes collected for a resource are those of the tree whose
  resource root is its owner, in preorder;
* `DynamicScope.Covers.extend`: extending a scope by a root adds the stacks of its tree;
* `DynamicScope.buildAll_lexical`: stacks, tables and the resolution of dynamic references in a
  loaded graph.
-/

namespace OpenApi.Schema

variable {g : Graph} {a b c d m n o p r : NodeId}

/-! ## The nodes of a resource -/

namespace Graph

/-- The last node in preorder that declares a name for dynamic references, among the nodes of the
tree whose innermost owner is the given one. -/
def declaration? (g : Graph) (owner : NodeId) (name : String) : Option NodeId :=
  (g.preorder (g.topmost owner)).reverse.find? fun id =>
    (g.owners id).getLast? == some owner &&
      (g.node? id).bind Node.dynamicAnchor? == some name

/-- Below a node with an `$id` no resource reaches in from above. -/
theorem Forest.reaches_resourceRoot_of_opens (hf : Forest g) (hc : g.opensResource c = true)
    (h : g.Reaches c n) : g.Reaches c (g.resourceRoot n) := by
  induction h with
  | refl =>
    rw [hf.resourceRoot_of_opens (.inl hc)]
    exact .refl
  | @step p n hp hn ih =>
    cases hopen : g.opensResource n with
    | true =>
      rw [hf.resourceRoot_of_opens (.inl hopen)]
      exact hp.step hn
    | false =>
      rw [hf.resourceRoot_of_below (hf.parent?_eq_some_iff.mpr hn) hopen]
      exact ih

/-- From a node of a resource on, the pruned visits keep the nodes of that resource. -/
theorem Forest.filter_visits (hf : Forest g) (hn : g.resourceRoot n = o) :
    (g.visits (g.opensOther o) n).filter (fun id => !g.opensOther o id) =
      (g.preorder n).filter fun id => g.resourceRoot id == o := by
  induction n using hf.downward with
  | node n ih =>
    have hself : g.opensOther o n = false := by
      rw [opensOther]
      cases hopen : g.opensResource n with
      | false => rw [Bool.and_false]
      | true =>
        rw [hf.resourceRoot_of_opens (.inl hopen)] at hn
        simp [hn]
    have hle : n ≤ o := hn ▸ (hf.reaches_resourceRoot n).le hf
    rw [hf.visits_eq, hf.preorder_eq, hself, if_neg Bool.false_ne_true]
    rw [List.filter_cons_of_pos (by simp [hself]), List.filter_cons_of_pos (by simp [hn])]
    rw [List.filter_flatMap, List.filter_flatMap]
    congr 1
    refine List.flatMap_congr fun c hc => ?_
    cases hopen : g.opensResource c with
    | false =>
      have hroot := hf.resourceRoot_of_below (hf.parent?_eq_some_iff.mpr hc) hopen
      exact ih c hc (hroot.trans hn)
    | true =>
      have hlt : c < o := Nat.lt_of_lt_of_le (hf.lt hc) hle
      have hskip : g.opensOther o c = true := by
        simp [opensOther, hopen, Nat.ne_of_lt hlt]
      have hnone : (g.preorder c).filter (fun id => g.resourceRoot id == o) = [] := by
        refine List.filter_eq_nil_iff.mpr fun m hm hroot => ?_
        have hr := hf.reaches_resourceRoot_of_opens hopen (hf.mem_preorder_iff.mp hm)
        rw [beq_iff_eq.mp hroot] at hr
        exact Nat.not_lt_of_le (hr.le hf) hlt
      rw [hnone, hf.visits_eq, hskip, if_pos rfl]
      simp [hskip]

/-- The nodes of a resource are found in the tree of its owner. -/
theorem Forest.filter_preorder (hf : Forest g) (h : g.Reaches a o) :
    (g.preorder a).filter (fun id => g.resourceRoot id == o) =
      (g.preorder o).filter fun id => g.resourceRoot id == o := by
  obtain ⟨before, after, hsplit⟩ := hf.preorder_infix h
  have hnodup : (before ++ g.preorder o ++ after).Nodup := hsplit ▸ hf.nodup_visits a
  have inside : ∀ {id}, (g.resourceRoot id == o) = true → id ∈ g.preorder o := by
    intro id hid
    have hr := hf.reaches_resourceRoot id
    rw [beq_iff_eq.mp hid] at hr
    exact hf.mem_preorder_iff.mpr hr
  obtain ⟨hfirst, -, hafter⟩ := List.nodup_append.mp hnodup
  obtain ⟨-, -, hbefore⟩ := List.nodup_append.mp hfirst
  have hbefore : before.filter (fun id => g.resourceRoot id == o) = [] :=
    List.filter_eq_nil_iff.mpr fun id hid hroot => hbefore id hid id (inside hroot) rfl
  have hafter : after.filter (fun id => g.resourceRoot id == o) = [] :=
    List.filter_eq_nil_iff.mpr fun id hid hroot =>
      hafter id (List.mem_append_right _ (inside hroot)) id hid rfl
  rw [← hsplit, List.filter_append, List.filter_append, hbefore, hafter, List.nil_append,
    List.append_nil]

/-- The pruned walk from an owner collects the nodes whose resource root it is, in preorder. -/
theorem Forest.resourceNodes_eq (hf : Forest g) (ho : g.resourceRoot o = o) (hlt : o < g.size) :
    g.resourceNodes o =
      (g.preorder (g.topmost o)).filter fun id => g.resourceRoot id == o := by
  rw [resourceNodes, hf.walk_eq hlt, hf.filter_visits ho, hf.filter_preorder (hf.reaches_topmost o)]

end Graph

theorem Entries.get?_declarations (l : List NodeId) (f : NodeId → Option String) (name : String) :
    Entries.get? name (l.filterMap fun id => (f id).map fun name => (name, id)) =
      l.find? fun id => f id == some name := by
  induction l with
  | nil => rfl
  | cons id l ih =>
    rw [List.filterMap_cons, List.find?_cons]
    cases hf : f id with
    | none => simpa [hf] using ih
    | some other =>
      simp only [Option.map_some, Entries.get?]
      by_cases ho : other = name
      · simp [ho]
      · have hbeq : (other == name) = false := beq_eq_false_iff_ne.mpr ho
        simpa [ho, hbeq] using ih

/-- The table of a resource maps a name to its last declaration. -/
theorem Resource.get?_anchors_of (hf : g.Forest) (ho : g.resourceRoot o = o) (hlt : o < g.size)
    (name : String) : (Resource.of g o).anchors.get? name = g.declaration? o name := by
  rw [Resource.of, OrderedMap.get?_ofList, ← List.filterMap_reverse, Entries.get?_declarations,
    hf.resourceNodes_eq ho hlt, ← List.filter_reverse, List.find?_filter, Graph.declaration?]
  simp only [Bool.decide_and, Bool.decide_eq_true, hf.getLast?_owners, Option.some_beq_some]

/-! ## Stacks -/

/-- The resources around a node, outermost first. -/
def resourcesAround (g : Graph) (id : NodeId) : List Resource := (g.owners id).map (Resource.of g)

/-- The resources around the parent of a node; none above a topmost node. -/
def resourcesAbove (g : Graph) (id : NodeId) : List Resource :=
  match g.parent? id with
  | some parent => resourcesAround g parent
  | none => []

namespace DynamicScope

/-- Entering a node below a topmost one completes its stack. -/
theorem enter_resourcesAbove (hf : g.Forest) (hr : g.parent? r = none) (h : g.Reaches r n) :
    enter g r n (resourcesAbove g n) = resourcesAround g n := by
  have hfresh : ∀ resource ∈ resourcesAbove g n, resource.owner ≠ n := by
    intro resource hmem
    rw [resourcesAbove] at hmem
    split at hmem
    · rename_i p hp
      obtain ⟨o, ho, rfl⟩ := List.mem_map.mp hmem
      have hle : p ≤ o := (hf.reaches_of_mem_owners ho).le hf
      exact Ne.symm (Nat.ne_of_lt (Nat.lt_of_lt_of_le (hf.lt (hf.parent?_eq_some_iff.mp hp)) hle))
    · cases hmem
  have hany : (resourcesAbove g n).any (·.owner == n) = false := by
    simpa using hfresh
  rw [enter, hany, resourcesAround, resourcesAbove]
  cases hp : g.parent? n with
  | none =>
    have hroot : r = n := h.eq_of_parent? hf hp
    rw [Graph.owners_of_top hp]
    simp [hroot]
  | some p =>
    have hne : n ≠ r := by
      rintro rfl
      rw [hr] at hp
      cases hp
    rw [hf.owners_of_below hp]
    cases g.opensResource n with
    | false => simp [hne, resourcesAround]
    | true => simp [resourcesAround]

theorem contains_cons (s : DynamicScope) (id m : NodeId) (stack : List Resource) :
    contains { byNode := (id, stack) :: s.byNode } m = (m == id || s.contains m) := by
  rw [contains, stack?, List.lookup_cons]
  cases h : m == id with
  | true => rfl
  | false => rfl

/-- A node below a topmost one, not yet visited, gets its stack, and its subschemas come next. -/
theorem extendFrom_cons (hf : g.Forest) (hr : g.parent? r = none) (fuel : Nat) {s : DynamicScope}
    {id : NodeId} (pending : List (NodeId × List Resource)) (hlt : id < g.size)
    (hreach : g.Reaches r id) (hid : s.contains id = false) :
    extendFrom g r (fuel + 1) s ((id, resourcesAbove g id) :: pending) =
      extendFrom g r fuel { byNode := (id, resourcesAround g id) :: s.byNode }
        ((g.subschemas id).map (fun c => (c, resourcesAround g id)) ++ pending) := by
  obtain ⟨node, hnode, hsubs⟩ := Graph.node?_of_lt hlt
  rw [extendFrom, hid, if_neg Bool.false_ne_true, hnode]
  simp only [enter_resourcesAbove hf hr hreach, hsubs]

/-- Visiting disjoint trees below a topmost node, each with the stack above it, puts the stacks of
their nodes before what the scope has. -/
theorem extendFrom_eq (hf : g.Forest) (hr : g.parent? r = none) (fuel : Nat) (s : DynamicScope)
    (pending : List (NodeId × List Resource))
    (hpending : ∀ e ∈ pending, e.1 < g.size ∧ g.Reaches r e.1 ∧ e.2 = resourcesAbove g e.1)
    (hnodup : ((pending.map Prod.fst).flatMap g.preorder).Nodup)
    (hnew : ∀ m ∈ (pending.map Prod.fst).flatMap g.preorder, s.contains m = false)
    (hfuel : ((pending.map Prod.fst).flatMap g.preorder).length ≤ fuel) :
    (extendFrom g r fuel s pending).byNode =
      (((pending.map Prod.fst).flatMap g.preorder).map fun m => (m, resourcesAround g m)).reverse ++
        s.byNode := by
  induction fuel generalizing s pending with
  | zero =>
    cases pending with
    | nil => rfl
    | cons e pending =>
      rw [List.map_cons, List.flatMap_cons, hf.preorder_eq] at hfuel
      simp at hfuel
  | succ fuel ih =>
    cases pending with
    | nil => rfl
    | cons e pending =>
      obtain ⟨id, outer⟩ := e
      obtain ⟨hlt, hreach, houter⟩ := hpending (id, outer) List.mem_cons_self
      obtain rfl : outer = resourcesAbove g id := houter
      have hid : s.contains id = false := by
        refine hnew id ?_
        rw [List.map_cons, List.flatMap_cons, hf.preorder_eq]
        exact List.mem_cons_self
      obtain ⟨next, hnext⟩ : ∃ next, next =
          (g.subschemas id).map (fun c => (c, resourcesAround g id)) ++ pending := ⟨_, rfl⟩
      have htree : (((id, resourcesAbove g id) :: pending).map Prod.fst).flatMap g.preorder =
          id :: (next.map Prod.fst).flatMap g.preorder := by
        rw [List.map_cons, List.flatMap_cons, hf.preorder_eq, hnext, List.map_append, List.map_map,
          List.flatMap_append, List.cons_append]
        simp [Function.comp_def]
      rw [htree, List.nodup_cons] at hnodup
      rw [htree] at hnew hfuel
      rw [extendFrom_cons hf hr fuel pending hlt hreach hid, ← hnext, htree, ih _ next,
        List.map_cons, List.reverse_cons, List.append_assoc, List.singleton_append]
      · intro e he
        rw [hnext, List.mem_append, List.mem_map] at he
        obtain ⟨c, hc, rfl⟩ | he := he
        · refine ⟨hf.lt_size_of_mem_subschemas hc, hreach.step hc, ?_⟩
          rw [resourcesAbove, hf.parent?_eq_some_iff.mpr hc]
        · exact hpending e (List.mem_cons_of_mem _ he)
      · exact hnodup.2
      · intro m hm
        have hne : (m == id) = false := by
          refine beq_eq_false_iff_ne.mpr ?_
          rintro rfl
          exact hnodup.1 hm
        rw [contains_cons, hne, Bool.false_or]
        exact hnew m (List.mem_cons_of_mem _ hm)
      · exact Nat.le_of_succ_le_succ hfuel

/-! ## The scope of all roots -/

/-- The scope holds the nodes reached from the given ones, each with the resources around it. -/
structure Covers (g : Graph) (roots : List NodeId) (s : DynamicScope) : Prop where
  stack? : ∀ {r n}, r ∈ roots → g.Reaches r n → s.stack? n = some (resourcesAround g n)
  reached : ∀ {n}, s.contains n = true → ∃ r ∈ roots, g.Reaches r n

theorem Covers.empty (g : Graph) : Covers g [] {} where
  stack? h := absurd h List.not_mem_nil
  reached h := by cases h

theorem lookup_graph (l : List NodeId) (f : NodeId → α) (m : NodeId) :
    (l.map fun m => (m, f m)).lookup m = if m ∈ l then some (f m) else none := by
  split
  next h => exact List.lookup_graph f h
  next h =>
    rw [List.lookup_eq_none_iff]
    intro e he
    obtain ⟨k, hk, rfl⟩ := List.mem_map.mp he
    have hne : m ≠ k := fun hmk => h (hmk ▸ hk)
    exact bne_iff_ne.mpr hne

/-- Extending by a root that the scope has changes nothing. -/
theorem extend_of_contains (h : s.contains r = true) : extend g s r = s := by
  rw [extend, extendFrom, h, if_pos rfl]
  cases g.edgeCount <;> rfl

/-- Extending by a topmost node gives the nodes of its tree their stacks. -/
theorem stack?_extend (hf : g.Forest) {s : DynamicScope} (hlt : r < g.size)
    (hr : g.parent? r = none) (hnew : ∀ m ∈ g.preorder r, s.contains m = false) (m : NodeId) :
    (extend g s r).stack? m =
      if m ∈ g.preorder r then some (resourcesAround g m) else s.stack? m := by
  have htree : ([(r, ([] : List Resource))].map Prod.fst).flatMap g.preorder = g.preorder r := by
    simp
  have hlen : (g.preorder r).length ≤ g.edgeCount + 2 :=
    Nat.le_succ_of_le (hf.length_visits_le r)
  have hby : (extend g s r).byNode =
      ((g.preorder r).reverse.map fun m => (m, resourcesAround g m)) ++ s.byNode := by
    rw [extend, extendFrom_eq hf hr, htree, List.map_reverse]
    · intro e he
      obtain rfl := List.mem_singleton.mp he
      exact ⟨hlt, .refl, by rw [resourcesAbove, hr]⟩
    · rw [htree]
      exact hf.nodup_visits r
    · rw [htree]
      exact hnew
    · rw [htree]
      exact hlen
  rw [stack?, hby, List.lookup_append, lookup_graph]
  simp only [List.mem_reverse]
  split <;> rfl

/-- Two different topmost nodes have no node in common below them. -/
theorem Covers.contains_eq_false (hf : g.Forest) {roots : List NodeId} {s : DynamicScope}
    (hroots : ∀ r ∈ roots, g.parent? r = none) (h : Covers g roots s) (hr : g.parent? r = none)
    (hc : s.contains r = false) {m : NodeId} (hm : m ∈ g.preorder r) : s.contains m = false := by
  rw [← Bool.not_eq_true]
  intro hcm
  obtain ⟨r', hr', hreach⟩ := h.reached hcm
  have hsame : r' = r := by
    obtain hrr | hrr := hreach.comparable hf (hf.mem_preorder_iff.mp hm)
    · exact hrr.eq_of_parent? hf hr
    · exact (hrr.eq_of_parent? hf (hroots r' hr')).symm
  subst hsame
  rw [contains, h.stack? hr' .refl] at hc
  cases hc

/-- Extending by a topmost node adds the nodes of its tree. -/
theorem Covers.extend (hf : g.Forest) {roots : List NodeId} {s : DynamicScope}
    (hroots : ∀ r ∈ roots, g.parent? r = none) (h : Covers g roots s) (hlt : r < g.size)
    (hr : g.parent? r = none) : Covers g (roots ++ [r]) (extend g s r) := by
  cases hc : s.contains r with
  | true =>
    obtain ⟨r', hr', hreach⟩ := h.reached hc
    obtain rfl := hreach.eq_of_parent? hf hr
    rw [extend_of_contains hc]
    refine ⟨fun hmem hn => ?_, fun hn => ?_⟩
    · rw [List.mem_append, List.mem_singleton] at hmem
      obtain hmem | rfl := hmem
      · exact h.stack? hmem hn
      · exact h.stack? hr' hn
    · obtain ⟨r₁, hr₁, hn⟩ := h.reached hn
      exact ⟨r₁, List.mem_append_left _ hr₁, hn⟩
  | false =>
    have hstack := stack?_extend hf hlt hr fun _ => h.contains_eq_false hf hroots hr hc
    refine ⟨fun {r₁ n} hmem hn => ?_, fun {n} hn => ?_⟩
    · rw [hstack]
      split
      next => rfl
      next hout =>
        rw [List.mem_append, List.mem_singleton] at hmem
        obtain hmem | rfl := hmem
        · exact h.stack? hmem hn
        · exact absurd (hf.mem_preorder_iff.mpr hn) hout
    · rw [contains, hstack] at hn
      split at hn
      next hin => exact ⟨r, by simp, hf.mem_preorder_iff.mp hin⟩
      next =>
        obtain ⟨r₁, hr₁, hreach⟩ := h.reached hn
        exact ⟨r₁, List.mem_append_left _ hr₁, hreach⟩

theorem Covers.foldl_extend (hf : g.Forest) {roots more : List NodeId} {s : DynamicScope}
    (hroots : ∀ r ∈ roots, g.parent? r = none)
    (hmore : ∀ r ∈ more, r < g.size ∧ g.parent? r = none) (h : Covers g roots s) :
    Covers g (roots ++ more) (more.foldl (DynamicScope.extend g) s) := by
  induction more generalizing roots s with
  | nil => rwa [List.append_nil]
  | cons r more ih =>
    obtain ⟨hlt, hr⟩ := hmore r List.mem_cons_self
    rw [List.foldl_cons, List.append_cons]
    refine ih (fun r' hr' => ?_) (fun r' hr' => hmore r' (List.mem_cons_of_mem _ hr'))
      (h.extend hf hroots hlt hr)
    rw [List.mem_append, List.mem_singleton] at hr'
    obtain hr' | rfl := hr'
    · exact hroots r' hr'
    · exact hr

/-- The scope of all roots covers what they reach. -/
theorem covers_buildAll (h : g.Rooted) : Covers g g.roots (buildAll g) := by
  have hall := (Covers.empty g).foldl_extend h.forest (by simp) h.roots
  rwa [List.nil_append] at hall

end DynamicScope

/-! ## References -/

/-- The fragment of a dynamic reference gives back the name that was escaped into it. -/
theorem anchorName?_escapeUnreserved {name : String} (h : name ≠ "") :
    Reference.anchorName? ("#" ++ Parameter.escapeUnreserved name) = some name := by
  have hchars : ("#" ++ Parameter.escapeUnreserved name).toList =
      '#' :: (Parameter.escapeUnreserved name).toList := by
    rw [String.toList_append]
    rfl
  have htrim : Text.trim ("#" ++ Parameter.escapeUnreserved name) =
      "#" ++ Parameter.escapeUnreserved name := by
    refine Text.trim_eq_self fun c hc => ?_
    rw [hchars, List.mem_cons] at hc
    obtain rfl | hc := hc
    · decide
    · obtain hc | rfl := Parameter.mem_escapeUnreserved hc
      · exact Parameter.isBlank_of_isUnreserved hc
      · decide
  have hcut : Text.cut? '#' ('#' :: (Parameter.escapeUnreserved name).toList) =
      some ([], (Parameter.escapeUnreserved name).toList) :=
    Text.cut?_append List.not_mem_nil
  have hfragment : (Reference.splitFragment ("#" ++ Parameter.escapeUnreserved name)).2 =
      some (Parameter.escapeUnreserved name) := by
    rw [Reference.splitFragment, hchars, hcut]
    exact congrArg some String.ofList_toList
  have hempty : name.isEmpty = false := by
    rw [← Bool.not_eq_true, String.isEmpty_iff]
    exact h
  rw [Reference.anchorName?, htrim, hfragment]
  simp only [Parameter.decode_escapeUnreserved, hempty, if_neg Bool.false_ne_true]

namespace DynamicScope

/-- Dynamic references follow the nesting of resources, innermost first. For every node below a
top-level schema of a loaded graph, the owners on its stack are the topmost node above it and the
nodes with an `$id` from there down to it; the table of each owner maps a name to its last
declaration in the owner's resource; and a dynamic reference stands for the declaration of its name
by the innermost owner that has one. -/
theorem buildAll_lexical (h : g.Built) (hr : r ∈ g.roots) (hn : g.Reaches r n) :
    ((buildAll g).stack n).map Resource.owner = g.owners n ∧
      (g.owners n).getLast? = some (g.resourceRoot n) ∧
      (∀ resource ∈ (buildAll g).stack n, ∀ name,
        resource.anchors.get? name = g.declaration? resource.owner name) ∧
      ∀ name, name ≠ "" →
        (buildAll g).resolve n ("#" ++ Parameter.escapeUnreserved name) =
          (g.owners n).reverse.findSome? fun owner => g.declaration? owner name := by
  have hrooted := h.rooted
  have hf := hrooted.forest
  have hstack : (buildAll g).stack n = resourcesAround g n := by
    rw [stack, (covers_buildAll hrooted).stack? hr hn, Option.getD_some]
  have hroot : ∀ o ∈ g.owners n, g.resourceRoot o = o := fun o ho =>
    hf.resourceRoot_of_opens (hf.opens_of_mem_owners ho)
  have hsize : ∀ o ∈ g.owners n, o < g.size := by
    intro o ho
    have hlt : n < g.size := Nat.lt_of_le_of_lt (hn.le hf) (hrooted.roots r hr).1
    exact (hf.reaches_of_mem_owners ho).lt_size hlt
  have htable : ∀ o ∈ g.owners n, ∀ name,
      (Resource.of g o).anchors.get? name = g.declaration? o name := fun o ho =>
    Resource.get?_anchors_of hf (hroot o ho) (hsize o ho)
  refine ⟨?_, hf.getLast?_owners n, ?_, ?_⟩
  · rw [hstack, resourcesAround, List.map_map]
    exact List.map_id (g.owners n)
  · intro resource hmem name
    rw [hstack] at hmem
    obtain ⟨o, ho, rfl⟩ := List.mem_map.mp hmem
    exact htable o ho name
  · intro name hname
    rw [resolve, anchorName?_escapeUnreserved hname, Option.bind_some, lookup, hstack,
      resourcesAround, ← List.map_reverse, List.findSome?_map]
    exact findSome?_congr fun o ho => htable o (List.mem_reverse.mp ho) name

/-- A schema that declares `node` around a resource that declares it twice. -/
def nested : Json.Value :=
  .object [("$dynamicAnchor", .string "node"),
    ("$defs", .object [("strict", .object [("$id", .string "s"), ("$dynamicAnchor", .string "node"),
      ("properties", .object [("first", .object [("$dynamicAnchor", .string "node")]),
        ("second", .object [])])])])]

theorem buildAll_lexical_nested : ∃ g : Graph, g.Built ∧ 3 ∈ g.roots ∧ g.Reaches 3 1 ∧
    ((buildAll g).stack 1).map Resource.owner = [3, 2] ∧
      (buildAll g).resolve 1 ("#" ++ Parameter.escapeUnreserved "node") = some 0 := by
  have hok : (Graph.insert {} nested).1.toOption = some 3 := by decide +kernel
  obtain ⟨result, g, hg⟩ : ∃ result g, Graph.insert {} nested = (result, g) := ⟨_, _, rfl⟩
  have hbuilt : g.Built := by
    cases result with
    | error => rw [hg] at hok; cases hok
    | ok id => exact .insert .empty hg
  replace hg : g = (Graph.insert {} nested).2 := by rw [hg]
  have hroots : 3 ∈ g.roots := by rw [hg]; decide +kernel
  have hsecond : g.Reaches 3 1 := by
    have h₂ : 2 ∈ g.subschemas 3 := by rw [hg]; decide +kernel
    have h₁ : 1 ∈ g.subschemas 2 := by rw [hg]; decide +kernel
    exact (Graph.Reaches.refl.step h₂).step h₁
  obtain ⟨howners, -, -, hresolve⟩ := buildAll_lexical hbuilt hroots hsecond
  refine ⟨g, hbuilt, hroots, hsecond, ?_, ?_⟩
  · rw [howners, hg]
    decide +kernel
  · rw [hresolve "node" (by decide), hg]
    decide +kernel

end DynamicScope

end OpenApi.Schema
