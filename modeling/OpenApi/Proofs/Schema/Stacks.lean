import OpenApi.Proofs.Schema.DynamicScope

/-!
# Dynamic scopes of any graph

In a graph with shared subschemas and structural cycles a node may be pending with several stacks;
it keeps the one with which it is first visited.

* `DynamicScope.Explores`: what holds of the scope and of the pending nodes from the visit of the
  root on;
* `DynamicScope.Explores.run`: every step keeps it, and with enough steps nothing is left pending;
* `DynamicScope.build_stacks`: which nodes a scope contains, and how a stack continues the stack
  around a parent.
-/

namespace OpenApi.Schema.DynamicScope

variable {g : Graph} {s : DynamicScope} {c id m n o p r : NodeId} {stack outer : List Resource}
  {pending : List (NodeId × List Resource)}

theorem contains_iff : s.contains n = true ↔ ∃ stack, s.stack? n = some stack :=
  Option.isSome_iff_exists

theorem stack?_cons_self : stack? { byNode := (id, stack) :: s.byNode } id = some stack :=
  List.lookup_cons_self

theorem stack?_cons_of_ne (h : n ≠ id) :
    stack? { byNode := (id, stack) :: s.byNode } n = s.stack? n := by
  rw [stack?, List.lookup_cons, beq_eq_false_iff_ne.mpr h]
  rfl

/-- A visit leaves the nodes that were visited before. -/
theorem contains_cons_of_contains (h : s.contains n = true) :
    contains { byNode := (id, stack) :: s.byNode } n = true := by
  rw [contains_cons, h, Bool.or_true]

/-! ## Nested resources -/

/-- The resource of the root and inside it those of different visited nodes with an `$id`. -/
def Nested (g : Graph) (r : NodeId) (s : DynamicScope) (stack : List Resource) : Prop :=
  ∃ inner, stack = (r :: inner).map (Resource.of g) ∧ (r :: inner).Nodup ∧
    (∀ o ∈ inner, g.opensResource o = true) ∧ ∀ o ∈ r :: inner, s.contains o = true

/-- A stack continues the one around a parent: with the resource of the node if it has an `$id`. -/
def Inherits (g : Graph) (s : DynamicScope) (n : NodeId) (stack : List Resource) : Prop :=
  ∃ p outer, s.stack? p = some outer ∧ n ∈ g.subschemas p ∧
    stack = outer ++ if g.opensResource n then [Resource.of g n] else []

/-- A node that is not visited yet is no owner of a stack. -/
theorem Nested.any_owner (h : Nested g r s stack) (hnew : s.contains n = false) :
    stack.any (·.owner == n) = false := by
  obtain ⟨inner, rfl, -, -, hseen⟩ := h
  rw [List.any_map, List.any_eq_false]
  intro o ho howner
  have hsame : o = n := beq_iff_eq.mp howner
  rw [← hsame, hseen o ho] at hnew
  cases hnew

/-- A new node other than the root enters its resource exactly if it has an `$id`. -/
theorem Nested.enter_eq (h : Nested g r s outer) (hnew : s.contains n = false) :
    enter g r n outer = outer ++ if g.opensResource n then [Resource.of g n] else [] := by
  have hne : n ≠ r := by
    rintro rfl
    obtain ⟨inner, -, -, -, hseen⟩ := h
    rw [hseen n List.mem_cons_self] at hnew
    cases hnew
  have hroot : (n == r) = false := beq_eq_false_iff_ne.mpr hne
  rw [enter, h.any_owner hnew, hroot]
  cases g.opensResource n <;> simp

theorem Nested.cons (h : Nested g r s stack) :
    Nested g r { byNode := (id, outer) :: s.byNode } stack := by
  obtain ⟨inner, hstack, hnodup, hopen, hseen⟩ := h
  exact ⟨inner, hstack, hnodup, hopen, fun o ho => contains_cons_of_contains (hseen o ho)⟩

/-- With the stack of a new node the node is visited, so its own resource may be on it. -/
theorem Nested.enter (h : Nested g r s outer) (hnew : s.contains n = false) :
    Nested g r { byNode := (n, DynamicScope.enter g r n outer) :: s.byNode }
      (DynamicScope.enter g r n outer) := by
  obtain ⟨stack, hstack⟩ : ∃ stack, stack = DynamicScope.enter g r n outer := ⟨_, rfl⟩
  rw [← hstack]
  rw [h.enter_eq hnew] at hstack
  obtain ⟨inner, houter, hnodup, hopen, hseen⟩ := h
  cases hn : g.opensResource n with
  | false =>
    rw [hn, if_neg Bool.false_ne_true, List.append_nil] at hstack
    exact Nested.cons ⟨inner, hstack.trans houter, hnodup, hopen, hseen⟩
  | true =>
    rw [hn, if_pos rfl] at hstack
    have hfresh : n ∉ r :: inner := by
      intro hmem
      rw [hseen n hmem] at hnew
      cases hnew
    refine ⟨inner ++ [n], ?_, ?_, fun o ho => ?_, fun o ho => ?_⟩
    · rw [hstack, houter, ← List.cons_append, List.map_append]
      rfl
    · rw [← List.cons_append, ← List.concat_eq_append]
      exact hnodup.concat hfresh
    · obtain ho | ho := List.mem_append.mp ho
      · exact hopen o ho
      · exact List.mem_singleton.mp ho ▸ hn
    · rw [← List.cons_append, List.mem_append] at ho
      obtain ho | ho := ho
      · exact contains_cons_of_contains (hseen o ho)
      · rw [List.mem_singleton.mp ho, contains_cons, beq_self_eq_true, Bool.true_or]

/-- What a stack continues stays where it is. -/
theorem Inherits.cons (h : Inherits g s n stack) (hnew : s.contains id = false) :
    Inherits g { byNode := (id, outer) :: s.byNode } n stack := by
  obtain ⟨p, above, hp, hn, hstack⟩ := h
  refine ⟨p, above, ?_, hn, hstack⟩
  rw [stack?_cons_of_ne, hp]
  rintro rfl
  rw [contains_iff.mpr ⟨above, hp⟩] at hnew
  cases hnew

/-! ## Exploration -/

/-- A scope during the exploration from a root that is visited, with the pending nodes. -/
structure Explores (g : Graph) (r : NodeId) (s : DynamicScope)
    (pending : List (NodeId × List Resource)) : Prop where
  root : s.stack? r = some [Resource.of g r]
  reached : ∀ {n}, s.contains n = true → n < g.size ∧ g.Reaches r n
  /-- Every subschema of a visited node is visited or pending. -/
  closed : ∀ {p c}, s.contains p = true → c ∈ g.subschemas p → c < g.size →
    s.contains c = true ∨ c ∈ pending.map Prod.fst
  /-- What is pending is a subschema of a visited node and comes with the stack of that node. -/
  pending : ∀ e ∈ pending, ∃ p, s.stack? p = some e.2 ∧ e.1 ∈ g.subschemas p
  nested : ∀ {n stack}, s.stack? n = some stack → Nested g r s stack
  inherits : ∀ {n stack}, n ≠ r → s.stack? n = some stack → Inherits g s n stack

namespace Explores

/-- The visit of the root. -/
theorem start (hr : r < g.size) :
    Explores g r { byNode := [(r, [Resource.of g r])] }
      ((g.subschemas r).map (·, [Resource.of g r])) := by
  have hself : stack? { byNode := [(r, [Resource.of g r])] } r = some [Resource.of g r] :=
    stack?_cons_self
  have hother : ∀ {n}, n ≠ r → stack? { byNode := [(r, [Resource.of g r])] } n = none :=
    fun h => stack?_cons_of_ne h
  have hseen : ∀ {n}, contains { byNode := [(r, [Resource.of g r])] } n = true → n = r := by
    intro n hn
    by_contra hne
    rw [contains, hother hne] at hn
    cases hn
  refine ⟨hself, fun hn => ?_, fun hp hc _ => ?_, fun e he => ?_, fun {n stack} hn => ?_,
    fun hne hn => ?_⟩
  · rw [hseen hn]
    exact ⟨hr, .refl⟩
  · refine .inr ?_
    rw [hseen hp] at hc
    simpa using hc
  · obtain ⟨c, hc, rfl⟩ := List.mem_map.mp he
    exact ⟨r, hself, hc⟩
  · rw [hseen (contains_iff.mpr ⟨stack, hn⟩), hself, Option.some.injEq] at hn
    refine ⟨[], hn.symm, List.nodup_singleton r, by simp, fun o ho => ?_⟩
    rw [List.mem_singleton.mp ho]
    exact contains_iff.mpr ⟨_, hself⟩
  · rw [hother hne] at hn
    cases hn

/-- A pending entry whose node is visited, or is none of the graph, is dropped. -/
theorem drop (h : Explores g r s ((id, outer) :: pending))
    (hid : s.contains id = true ∨ g.size ≤ id) : Explores g r s pending where
  root := h.root
  reached := h.reached
  closed hp hc hlt := by
    obtain hc | hc := h.closed hp hc hlt
    · exact .inl hc
    · obtain rfl | hc := List.mem_cons.mp hc
      · exact .inl (hid.resolve_right (Nat.not_le_of_lt hlt))
      · exact .inr hc
  pending e he := h.pending e (List.mem_cons_of_mem _ he)
  nested := h.nested
  inherits := h.inherits

/-- The visit of a pending node. -/
theorem visit (h : Explores g r s ((id, outer) :: pending)) (hnew : s.contains id = false)
    (hlt : id < g.size) :
    Explores g r { byNode := (id, enter g r id outer) :: s.byNode }
      ((g.subschemas id).map (·, enter g r id outer) ++ pending) := by
  obtain ⟨parent, hparent, hid⟩ := h.pending (id, outer) List.mem_cons_self
  have houter : Nested g r s outer := h.nested hparent
  have hseen : ∀ {n stack}, s.stack? n = some stack → n ≠ id := by
    rintro n stack hn rfl
    rw [contains_iff.mpr ⟨stack, hn⟩] at hnew
    cases hnew
  have hkept : ∀ {n stack}, s.stack? n = some stack →
      stack? { byNode := (id, enter g r id outer) :: s.byNode } n = some stack := fun hn =>
    (stack?_cons_of_ne (hseen hn)).trans hn
  refine ⟨hkept h.root, fun {n} hn => ?_, fun {p c} hp hc hsize => ?_, fun e he => ?_,
    fun {n stack} hn => ?_, fun {n stack} hne hn => ?_⟩
  · rw [contains_cons, Bool.or_eq_true, beq_iff_eq] at hn
    obtain rfl | hn := hn
    · have hreach := (h.reached (contains_iff.mpr ⟨outer, hparent⟩)).2
      exact ⟨hlt, hreach.step hid⟩
    · exact h.reached hn
  · rw [contains_cons, Bool.or_eq_true, beq_iff_eq] at hp ⊢
    obtain rfl | hp := hp
    · exact .inr (by simp [hc])
    · obtain hc | hc := h.closed hp hc hsize
      · exact .inl (.inr hc)
      · obtain rfl | hc := List.mem_cons.mp hc
        · exact .inl (.inl rfl)
        · exact .inr (by simpa using .inr (by simpa using hc))
  · obtain he | he := List.mem_append.mp he
    · obtain ⟨c, hc, rfl⟩ := List.mem_map.mp he
      exact ⟨id, stack?_cons_self, hc⟩
    · obtain ⟨p, hp, hmem⟩ := h.pending e (List.mem_cons_of_mem _ he)
      exact ⟨p, hkept hp, hmem⟩
  · by_cases hsame : n = id
    · rw [hsame, stack?_cons_self, Option.some.injEq] at hn
      exact hn ▸ houter.enter hnew
    · rw [stack?_cons_of_ne hsame] at hn
      exact (h.nested hn).cons
  · by_cases hsame : n = id
    · subst hsame
      rw [stack?_cons_self, Option.some.injEq] at hn
      exact ⟨parent, outer, hkept hparent, hid, hn.symm.trans (houter.enter_eq hnew)⟩
    · rw [stack?_cons_of_ne hsame] at hn
      exact (h.inherits hne hn).cons hnew

/-- With enough steps left the exploration ends with nothing pending. -/
theorem run (fuel : Nat) (h : Explores g r s pending)
    (hfuel : pending.length + g.entriesLeft s.contains ≤ fuel) :
    Explores g r (extendFrom g r fuel s pending) [] := by
  induction fuel generalizing s pending with
  | zero =>
    obtain rfl : pending = [] := List.eq_nil_of_length_eq_zero (by omega)
    exact h
  | succ fuel ih =>
    cases pending with
    | nil => exact h
    | cons e pending =>
      obtain ⟨id, outer⟩ := e
      rw [List.length_cons] at hfuel
      rw [extendFrom]
      cases hseen : s.contains id with
      | true =>
        rw [if_pos rfl]
        exact ih (h.drop (.inl hseen)) (by omega)
      | false =>
        rw [if_neg Bool.false_ne_true]
        by_cases hlt : id < g.size
        · obtain ⟨node, hnode, hsubs⟩ := Graph.node?_of_lt hlt
          simp only [hnode, ← hsubs]
          refine ih (h.visit hseen hlt) ?_
          have hleft := Graph.entriesLeft_visit hlt hseen
          have hcontains : contains { byNode := (id, enter g r id outer) :: s.byNode } =
              fun m => m == id || s.contains m := funext fun m => contains_cons s id m _
          rw [hcontains, List.length_append, List.length_map]
          omega
        · have hnone : g.node? id = none := Array.getElem?_eq_none (Nat.le_of_not_lt hlt)
          simp only [hnone]
          exact ih (h.drop (.inr (Nat.le_of_not_lt hlt))) (by omega)

/-- At the end all nodes are visited that are reached from the root. -/
theorem contains_of_reaches (h : Explores g r s []) (hlt : n < g.size) (hn : g.Reaches r n) :
    s.contains n = true := by
  induction hn with
  | refl => exact contains_iff.mpr ⟨_, h.root⟩
  | step _ hc ih =>
    have hp := ih (Graph.lt_size_of_mem_subschemas hc)
    exact (h.closed hp hc hlt).resolve_right List.not_mem_nil

end Explores

/-! ## Scopes -/

/-- The scope of a node of the graph ends its exploration. -/
theorem explores_build (hr : r < g.size) : Explores g r (build g r) [] := by
  obtain ⟨node, hnode, hsubs⟩ := Graph.node?_of_lt hr
  have henter : enter g r r [] = [Resource.of g r] := by
    rw [enter, beq_self_eq_true]
    rfl
  have hstep : build g r = extendFrom g r (g.edgeCount + 1) { byNode := [(r, [Resource.of g r])] }
      ((g.subschemas r).map (·, [Resource.of g r])) := by
    rw [build, extend, extendFrom, contains, stack?, List.lookup_nil, Option.isSome_none,
      if_neg Bool.false_ne_true, hnode]
    simp only [henter, List.append_nil, hsubs]
  have hcontains : contains { byNode := [(r, [Resource.of g r])] } =
      fun m => m == r || false := funext fun m => contains_cons {} r m _
  have hleft : g.entriesLeft (fun _ => false) =
      (g.subschemas r).length + g.entriesLeft (fun m => m == r || false) :=
    Graph.entriesLeft_visit hr rfl
  rw [Graph.entriesLeft_none] at hleft
  rw [hstep]
  refine (Explores.start hr).run (g.edgeCount + 1) ?_
  rw [hcontains, List.length_map]
  omega

/-- A root that is no node of the graph leaves its scope empty. -/
theorem build_of_size_le (hr : g.size ≤ r) : build g r = {} := by
  have hnone : g.node? r = none := Array.getElem?_eq_none hr
  rw [build, extend, extendFrom, contains, stack?, List.lookup_nil, Option.isSome_none,
    if_neg Bool.false_ne_true, hnone, extendFrom]

/-- A scope contains the nodes reached from its root. The stack around a node begins with the
resource of the root, its owners are different, and all but the first have an `$id`. Unless the node
is the root, it is a subschema of a node whose stack it continues: with its own resource exactly if
it has an `$id`. -/
theorem build_stacks (g : Graph) (r : NodeId) :
    (∀ n, (build g r).contains n = true ↔ n < g.size ∧ g.Reaches r n) ∧
      ∀ n, n < g.size → g.Reaches r n →
        (∃ inner, (build g r).stack n = (r :: inner).map (Resource.of g) ∧ (r :: inner).Nodup ∧
          ∀ o ∈ inner, g.opensResource o = true) ∧
        (n = r ∧ (build g r).stack n = [Resource.of g r] ∨
          ∃ p < g.size, g.Reaches r p ∧ n ∈ g.subschemas p ∧
            (build g r).stack n =
              (build g r).stack p ++ if g.opensResource n then [Resource.of g n] else []) := by
  by_cases hr : r < g.size
  · have h := explores_build hr
    refine ⟨fun n => ⟨h.reached, fun ⟨hlt, hn⟩ => h.contains_of_reaches hlt hn⟩,
      fun n hlt hn => ?_⟩
    obtain ⟨stack, hstack⟩ := contains_iff.mp (h.contains_of_reaches hlt hn)
    have hn : (build g r).stack n = stack := by rw [DynamicScope.stack, hstack, Option.getD_some]
    rw [hn]
    constructor
    · obtain ⟨inner, hinner, hnodup, hopen, -⟩ := h.nested hstack
      exact ⟨inner, hinner, hnodup, hopen⟩
    · by_cases hne : n = r
      · rw [hne, h.root, Option.some.injEq] at hstack
        exact .inl ⟨hne, hstack.symm⟩
      · obtain ⟨p, outer, hp, hmem, hcont⟩ := h.inherits hne hstack
        obtain ⟨hsize, hreach⟩ := h.reached (contains_iff.mpr ⟨outer, hp⟩)
        refine .inr ⟨p, hsize, hreach, hmem, ?_⟩
        rw [hcont, DynamicScope.stack, hp, Option.getD_some]
  · have hout : ∀ {n}, n < g.size → ¬ g.Reaches r n := fun hlt hn => hr (hn.lt_size hlt)
    rw [build_of_size_le (Nat.le_of_not_lt hr)]
    exact ⟨fun n => ⟨fun h => (by cases h), fun ⟨hlt, hn⟩ => absurd hn (hout hlt)⟩,
      fun n hlt hn => absurd hn (hout hlt)⟩

theorem build_stacks_tangle :
    4 < Graph.tangle.size ∧ Graph.tangle.Reaches 0 4 ∧
      ((build Graph.tangle 0).stack 4).map Resource.owner = [0, 2] ∧
      ∃ p < Graph.tangle.size, Graph.tangle.Reaches 0 p ∧ 4 ∈ Graph.tangle.subschemas p ∧
        (build Graph.tangle 0).stack 4 = (build Graph.tangle 0).stack p := by
  have hlt : 4 < Graph.tangle.size := by decide
  have hreach : Graph.tangle.Reaches 0 4 := by
    have h₂ : 2 ∈ Graph.tangle.subschemas 0 := by decide +kernel
    have h₄ : 4 ∈ Graph.tangle.subschemas 2 := by decide +kernel
    exact (Graph.Reaches.refl.step h₂).step h₄
  have hopen : Graph.tangle.opensResource 4 = false := by decide +kernel
  obtain ⟨-, hroot | ⟨p, hp, hr, hmem, hstack⟩⟩ := (build_stacks Graph.tangle 0).2 4 hlt hreach
  · exact absurd hroot.1 (by decide)
  · rw [hopen, if_neg Bool.false_ne_true, List.append_nil] at hstack
    exact ⟨hlt, hreach, by decide +kernel, p, hp, hr, hmem, hstack⟩

end OpenApi.Schema.DynamicScope
