import OpenApi.Proofs.Schema.Strays

/-!
# Anchors

A name as fragment is looked up in the resource around the node it stands on, then in the other
resources, then among the components and at last among the definitions.

* `Reference.PlainName`: the names that stand for themselves in a fragment;
* `Graph.anchor?_eq_some_iff`: the anchor of a resource is its first declaration in preorder;
* `Graph.resolve_plainName`: the four places, in their order;
* `Graph.resolve_anchor`: what a name stands for in a graph that calls have built.
-/

namespace OpenApi

open Text

/-! ## Names in fragments -/

namespace Reference

variable {name : String}

/-- A name that stands for itself in a fragment: it has no white space, no slash and none of the
marks that decoding replaces. -/
structure PlainName (name : String) : Prop where
  ne_empty : name ≠ ""
  chars : ∀ c ∈ name.toList, isBlank c = false ∧ c ≠ '/' ∧ c ≠ '~' ∧ c ≠ '%'

/-- Such are the names of letters, digits, hyphens, underscores and dots. -/
theorem plainName_of_word (hne : name ≠ "") (h : ∀ c ∈ name.toList,
    c.isAlphanum = true ∨ c = '-' ∨ c = '_' ∨ c = '.') : PlainName name := by
  refine ⟨hne, fun c hc => ?_⟩
  have hunreserved : Parameter.isUnreserved c = true := by
    rcases h c hc with h | rfl | rfl | rfl
    · simp [Parameter.isUnreserved, h]
    all_goals decide
  refine ⟨Parameter.isBlank_of_isUnreserved hunreserved, ?_, ?_, ?_⟩ <;> rintro rfl
  · exact absurd hunreserved (by decide)
  · exact absurd (h '~' hc) (by decide)
  · exact absurd hunreserved (by decide)

namespace PlainName

variable (h : PlainName name)
include h

theorem trim_hash : trim ("#" ++ name) = "#" ++ name := by
  refine trim_eq_self fun c hc => ?_
  rw [String.toList_append, List.mem_append] at hc
  rcases hc with hc | hc
  · rw [List.mem_singleton.mp hc]
    decide
  · exact (h.chars c hc).1

theorem decodeSegment_eq : decodeSegment name = name := by
  have htilde : '~' ∉ name.toList := fun hc => (h.chars _ hc).2.2.1 rfl
  have hself : ∀ mark replacement, unescapeMark mark replacement name.toList = name.toList := by
    intro mark replacement
    have happend : unescapeMark mark replacement (name.toList ++ []) =
        name.toList ++ unescapeMark mark replacement [] :=
      unescapeMark_append_of_notMem htilde []
    rwa [List.append_nil, unescapeMark, List.append_nil] at happend
  rw [decodeSegment, hself, hself, String.ofList_toList]
  exact Percent.decode_eq_self fun hc => (h.chars _ hc).2.2.2 rfl

theorem exists_cons : ∃ c cs, name.toList = c :: cs ∧ c ≠ '/' := by
  cases hcs : name.toList with
  | nil => exact absurd (String.toList_eq_nil_iff.mp hcs) h.ne_empty
  | cons c cs => exact ⟨c, cs, rfl, (h.chars c (hcs ▸ List.mem_cons_self)).2.1⟩

/-- As a reference the name stands for itself. -/
theorem name_hash : Reference.name ("#" ++ name) = name := by
  obtain ⟨c, cs, hcs, hc⟩ := h.exists_cons
  have hlist : ("#" ++ name).toList = '#' :: c :: cs := by
    rw [String.toList_append, hcs]
    rfl
  rw [Reference.name, h.trim_hash]
  simp only [hlist]
  split
  next heq => exact absurd (List.cons.inj (List.cons.inj heq).2).1 hc
  next heq =>
    cases heq
    rw [← hcs, String.ofList_toList]
  next hne => exact absurd rfl (hne _)

theorem anchorOf?_eq : Schema.Graph.anchorOf? name = some name := by
  obtain ⟨c, cs, hcs, hc⟩ := h.exists_cons
  rw [Schema.Graph.anchorOf?, hcs]
  simp only [if_neg hc, h.decodeSegment_eq]

end PlainName

end Reference

namespace Schema.Graph

open Json Reference

variable {g : Graph} {n o t : NodeId} {name : String}

/-! ## The anchor of a resource -/

/-- A node of a resource that declares a name, before all others that do in the tree of the
resource. -/
structure FirstDeclaration (g : Graph) (resource : NodeId) (name : String) (t : NodeId) : Prop where
  inside : g.resourceRoot t = resource
  declares : g.declares name t = true
  first : ∃ before after, g.preorder resource = before ++ t :: after ∧
    ∀ m ∈ before, g.resourceRoot m = resource → g.declares name m = false

theorem Forest.resourceRoot_resourceRoot (hf : g.Forest) (n : NodeId) :
    g.resourceRoot (g.resourceRoot n) = g.resourceRoot n :=
  hf.resourceRoot_of_opens (hf.opens_of_mem_owners (List.mem_of_getLast? (hf.getLast?_owners n)))

theorem Forest.anchor?_eq (hf : g.Forest) (ho : g.resourceRoot o = o) (hlt : o < g.size) :
    g.anchor? o name =
      (g.preorder o).find? fun m => g.resourceRoot m == o && g.declares name m := by
  rw [anchor?, hf.resourceNodes_eq ho hlt, hf.filter_preorder (hf.reaches_topmost o),
    List.find?_filter]
  simp only [Bool.decide_and, Bool.decide_eq_true]

theorem Forest.anchor?_eq_some_iff (hf : g.Forest) (ho : g.resourceRoot o = o) (hlt : o < g.size) :
    g.anchor? o name = some t ↔ g.FirstDeclaration o name t := by
  have hbefore : ∀ m, (!(g.resourceRoot m == o && g.declares name m)) = true ↔
      (g.resourceRoot m = o → g.declares name m = false) := by
    intro m
    simp only [Bool.not_and, Bool.or_eq_true, Bool.not_eq_true', beq_eq_false_iff_ne]
    exact imp_iff_not_or.symm
  rw [hf.anchor?_eq ho hlt, List.find?_eq_some_iff_append]
  simp only [hbefore, Bool.and_eq_true, beq_iff_eq]
  exact ⟨fun ⟨⟨hroot, hd⟩, hfirst⟩ => ⟨hroot, hd, hfirst⟩, fun ⟨hroot, hd, hfirst⟩ =>
    ⟨⟨hroot, hd⟩, hfirst⟩⟩

theorem Forest.anchor?_eq_none_iff (hf : g.Forest) (ho : g.resourceRoot o = o)
    (hlt : o < g.size) : g.anchor? o name = none ↔
      ∀ m, g.resourceRoot m = o → g.declares name m = false := by
  rw [hf.anchor?_eq ho hlt, List.find?_eq_none]
  constructor
  · intro h m hm
    have hmem : m ∈ g.preorder o := hf.mem_preorder_iff.mpr (hm ▸ hf.reaches_resourceRoot m)
    simpa [hm] using h m hmem
  · intro h m _ hd
    rw [Bool.and_eq_true, beq_iff_eq] at hd
    rw [h m hd.1] at hd
    cases hd.2

/-! ## Names as references -/

/-- A name is looked up in the resource around a node, in all others, among the components and among
the definitions. -/
theorem Forest.resolve_plainName (hf : g.Forest) (h : PlainName name) (n : NodeId) :
    g.resolve (some n) ("#" ++ name) =
      (((g.anchor? (g.resourceRoot n) name).or (g.ids.find? (g.declares name))).or
        (g.named.get? name)).or (g.definition? name) := by
  have hlocate : g.locate (some n) ("#" ++ name) =
      (g.anchor? (g.resourceRoot n) name).or (g.ids.find? (g.declares name)) := by
    rw [locate_eq, splitFragment_hash]
    show g.resolveFragment (g.resourceRoot n) name = _
    rw [resolveFragment_of_anchor h.anchorOf?_eq, hf.resourceRoot_resourceRoot]
  rw [resolve, h.trim_hash, hlocate, h.name_hash, ← Option.or_assoc]

/-- A node declares the names in its `$anchor` and in its `$dynamicAnchor`, without white space
around them, and a `$dynamicAnchor` of white space declares none. -/
theorem declares_iff : g.declares name n = true ↔ ∃ node, g.node? n = some node ∧
    ((∃ text, node.text .anchor = some text ∧ Text.trim text = name) ∨
      ∃ text, node.text .dynamicAnchor = some text ∧ Text.trim text = name ∧ name ≠ "") := by
  rw [declares]
  cases g.node? n with
  | none => simp
  | some node =>
    simp only [Node.declares, Node.dynamicAnchor?, nonBlank?, Bool.or_eq_true, beq_iff_eq,
      Option.filter_eq_some_iff, Option.map_eq_some_iff, Bool.not_eq_true', ← Bool.not_eq_true,
      String.isEmpty_iff, Option.some.injEq, exists_eq_left', ← and_assoc, exists_and_right, ne_eq]

theorem lt_size_of_declares (h : g.declares name n = true) : n < g.size := by
  obtain ⟨node, hn, -⟩ := declares_iff.mp h
  exact lt_size_of_node? hn

/-- The least of the nodes that declare a name. -/
theorem find?_declares_eq_some (hn : g.declares name n = true)
    (hleast : ∀ m < n, g.declares name m = false) :
    g.ids.find? (g.declares name) = some n := by
  rw [ids, List.find?_range_eq_some]
  exact ⟨hn, List.mem_range.mpr (lt_size_of_declares hn), fun m hm => by rw [hleast m hm]; rfl⟩

/-- The nodes before a node, the node, and those after it. -/
theorem ids_eq_append (hn : n < g.size) :
    g.ids = List.range n ++ n :: List.range' (n + 1) (g.size - (n + 1)) := by
  have happend := List.range'_append_1 (s := 0) (m := n) (n := g.size - n)
  rw [Nat.zero_add, Nat.add_sub_of_le (Nat.le_of_lt hn),
    ← Nat.sub_add_cancel (Nat.sub_pos_of_lt hn), List.range'_succ] at happend
  rw [ids, List.range_eq_range', List.range_eq_range', ← happend, Nat.sub_sub]

/-- The definition of the least of the nodes that have one. -/
theorem definition?_eq_some (hn : g.definitionOf? name n = some t)
    (hleast : ∀ m < n, g.definitionOf? name m = none) : g.definition? name = some t := by
  obtain ⟨node, hnode, -⟩ := Option.bind_eq_some_iff.mp hn
  rw [definition?_eq_findSome?, List.findSome?_eq_some_iff]
  exact ⟨_, n, _, ids_eq_append (lt_size_of_node? hnode), hn, fun m hm =>
    hleast m (List.mem_range.mp hm)⟩

/-- A name as reference stands for its first declaration in the resource around the node; without
one there, for that of the least node of all that declares it; without any, for the component of
that name, and else for the definition that the least node with one has. -/
theorem resolve_anchor {calls : List Insertion} (hg : after calls = g) (hn : n < g.size)
    (hname : PlainName name) :
    ((∃ m, g.resourceRoot m = g.resourceRoot n ∧ g.declares name m = true) →
      ∃ t, g.resolve (some n) ("#" ++ name) = some t ∧
        g.FirstDeclaration (g.resourceRoot n) name t) ∧
    ((∀ m, g.resourceRoot m = g.resourceRoot n → g.declares name m = false) →
      ∀ t, g.declares name t = true → (∀ m < t, g.declares name m = false) →
        g.resolve (some n) ("#" ++ name) = some t) ∧
    ((∀ m, g.declares name m = false) →
      (∀ t, g.named.get? name = some t → g.resolve (some n) ("#" ++ name) = some t) ∧
      (g.named.get? name = none →
        (∀ m t, g.definitionOf? name m = some t → (∀ k < m, g.definitionOf? name k = none) →
          g.resolve (some n) ("#" ++ name) = some t) ∧
        ((∀ m, g.definitionOf? name m = none) → g.resolve (some n) ("#" ++ name) = none))) := by
  have hf : g.Forest := hg ▸ forest_after calls
  have hroot := hf.resourceRoot_resourceRoot n
  have hlt : g.resourceRoot n < g.size := (hf.reaches_resourceRoot n).lt_size hn
  have hresolve := hf.resolve_plainName hname n
  refine ⟨fun ⟨m, hm, hd⟩ => ?_, fun hnone t ht hleast => ?_, fun hnone => ?_⟩
  · cases hanchor : g.anchor? (g.resourceRoot n) name with
    | none =>
      rw [(hf.anchor?_eq_none_iff hroot hlt).mp hanchor m hm] at hd
      cases hd
    | some t =>
      refine ⟨t, ?_, (hf.anchor?_eq_some_iff hroot hlt).mp hanchor⟩
      rw [hresolve, hanchor, Option.some_or, Option.some_or, Option.some_or]
  · rw [hresolve, (hf.anchor?_eq_none_iff hroot hlt).mpr hnone, Option.none_or,
      find?_declares_eq_some ht hleast, Option.some_or, Option.some_or]
  · have hscan : g.ids.find? (g.declares name) = none :=
      List.find?_eq_none.mpr fun m _ hd => by rw [hnone m] at hd; cases hd
    rw [(hf.anchor?_eq_none_iff hroot hlt).mpr fun m _ => hnone m, Option.none_or, hscan,
      Option.none_or] at hresolve
    refine ⟨fun t ht => by rw [hresolve, ht, Option.some_or], fun hcomponent => ?_⟩
    rw [hcomponent, Option.none_or] at hresolve
    refine ⟨fun m t ht hleast => hresolve.trans (definition?_eq_some ht hleast), fun hnone => ?_⟩
    rw [hresolve, definition?_eq_findSome?]
    exact List.findSome?_eq_none_iff.mpr fun m _ => hnone m

/-- Calls that use one name for a component, a definition, an anchor of a resource and two of the
resource around that. -/
def sameNames : List Insertion :=
  [.named "a" (.object []), .unnamed (.object
    [("$defs", .object [("a", .bool true),
      ("inner", .object [("$id", .string "s"), ("not", .object [("$anchor", .string "a")])])]),
    ("allOf", .array [.object [("$dynamicAnchor", .string " a ")],
      .object [("$anchor", .string "a")]])])]

theorem resolve_anchor_sameNames : 6 < (after sameNames).size ∧ PlainName "a" ∧
    (∃ t, (after sameNames).resolve (some 6) ("#" ++ "a") = some t ∧
      (after sameNames).FirstDeclaration 6 "a" t) ∧
    (after sameNames).resolve (some 0) ("#" ++ "a") = some 2 ∧
    (after sameNames).resolve (some 0) ("#" ++ "inner") = some 3 := by
  have hsize : (after sameNames).size = 7 := by decide +kernel
  have hundeclared : ∀ name m, 7 ≤ m → (after sameNames).declares name m = false := by
    intro name m hm
    rw [← Bool.not_eq_true]
    exact fun hd => absurd (lt_size_of_declares hd) (hsize ▸ Nat.not_lt_of_le hm)
  have plain {name : String} (hne : name ≠ "")
      (h : name.toList.all Char.isAlphanum = true) : PlainName name :=
    plainName_of_word hne fun c hc => .inl (List.all_eq_true.mp h c hc)
  have ha : PlainName "a" := plain (by decide) (by decide)
  have hinner : PlainName "inner" := plain (by decide) (by decide)
  have hroot : (after sameNames).resourceRoot 6 = 6 := by decide +kernel
  have hsix : 6 < (after sameNames).size := hsize ▸ (by decide)
  have hzero : 0 < (after sameNames).size := hsize ▸ (by decide)
  obtain ⟨hown, -⟩ := resolve_anchor (g := after sameNames) rfl hsix ha
  obtain ⟨-, hleast, -⟩ := resolve_anchor (g := after sameNames) rfl hzero ha
  obtain ⟨-, -, hnone⟩ := resolve_anchor (g := after sameNames) rfl hzero hinner
  rw [hroot] at hown
  refine ⟨hsix, ha, hown ⟨4, by decide +kernel⟩,
    hleast (fun m hm => ?_) 2 (by decide +kernel) (by decide +kernel),
    ((hnone fun m => ?_).2 (by decide +kernel)).1 6 3 (by decide +kernel) (by decide +kernel)⟩
  · have hlow : ∀ m < 7, (after sameNames).resourceRoot m = (after sameNames).resourceRoot 0 →
        (after sameNames).declares "a" m = false := by decide +kernel
    exact (Nat.lt_or_ge m 7).elim (fun hlt => hlow m hlt hm) (hundeclared "a" m)
  · have hlow : ∀ m < 7, (after sameNames).declares "inner" m = false := by decide +kernel
    exact (Nat.lt_or_ge m 7).elim (hlow m) (hundeclared "inner" m)

end Schema.Graph

end OpenApi
