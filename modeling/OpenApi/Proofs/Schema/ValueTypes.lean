import OpenApi.Proofs.Pointer
import OpenApi.Proofs.Result
import OpenApi.Proofs.Schema.ReadNode
import OpenApi.Proofs.Schema.Types

/-!
# Types of schemas beside components

A schema outside the components of a document that refers to one of them has the types of its
target, and its own keywords do not count. A node among the components with the same members has the
types that it declares where nothing is known of its target.

* `Graph.resolve_componentReference`: a reference to a component does not depend on where it stands;
* `Graph.Stores.types_reference`: the types of a node that refers to a component;
* `valueTypes_componentReference`: the types of both, and where they agree.
-/

namespace OpenApi.Schema

open Json

/-! ## References to components -/

/-- The reference to a component, or to what a pointer leads to from one. -/
def componentReference (rest : String) : String := "#/components/schemas/" ++ rest

theorem trim_componentReference (rest : String) :
    ∃ rest', Text.trim (componentReference rest) = "#" ++ ("/components/schemas/" ++ rest') := by
  have hchars : (componentReference rest).toList =
      '#' :: "/components/schemas".toList ++ '/' :: rest.toList := by
    unfold componentReference
    simp
  refine ⟨String.ofList (Text.dropEndWhile Text.isBlank rest.toList), ?_⟩
  rw [Text.trim, hchars, Text.trimChars_append _ _ (by decide) (by decide)]
  apply String.toList_inj.mp
  simp

namespace Graph

variable {g : Graph} {id : NodeId}

/-- A pointer from a component is followed in the same way from every resource. -/
theorem resolveFragment_components (g : Graph) (base base' : NodeId) (rest : String) :
    g.resolveFragment base ("/components/schemas/" ++ rest) =
      g.resolveFragment base' ("/components/schemas/" ++ rest) := by
  have hchars : ("/components/schemas/" ++ rest).toList =
      '/' :: 'c' :: ("omponents".toList ++ '/' :: ("schemas".toList ++ '/' :: rest.toList)) := by
    simp
  have hcut : Text.splitOn '/'
      ('c' :: ("omponents".toList ++ '/' :: ("schemas".toList ++ '/' :: rest.toList))) =
        "components".toList :: "schemas".toList :: Text.splitOn '/' rest.toList := by
    have hcomponents : 'c' :: "omponents".toList = "components".toList := by simp
    rw [← List.cons_append, hcomponents, Text.splitOn_append (by simp),
      Text.splitOn_append (by simp)]
  have hcomponents : Reference.decodeSegment "components" = "components" := by decide +kernel
  have hschemas : Reference.decodeSegment "schemas" = "schemas" := by decide +kernel
  obtain ⟨name, segments, hname⟩ := List.exists_cons_of_ne_nil (Text.splitOn_ne_nil '/' rest.toList)
  rw [resolveFragment, resolveFragment, hchars]
  simp only [hcut, hname, List.map_cons, String.ofList_toList, hcomponents, hschemas]

/-- Loading named schemas keeps the graph and stores each of them. -/
theorem built_of_insertAllNamed {entries : List (String × Value)} {g' : Graph} (hb : g.Built)
    (h : g.insertAllNamed entries = .ok g') :
    g'.Built ∧ g.Keeps g' ∧ ∀ e ∈ entries, ∃ id, g'.Stores e.2 id := by
  induction entries generalizing g with
  | nil =>
    cases h
    exact ⟨hb, .refl _, by simp⟩
  | cons e entries ih =>
    obtain ⟨name, value⟩ := e
    rw [insertAllNamed] at h
    split at h
    next id g₁ hinsert =>
      obtain ⟨hb', hkeeps, hstores⟩ := ih (hb.insertNamed hinsert) h
      obtain ⟨g₂, hl, rfl⟩ := insertNamed_eq_ok hinsert
      have hlater : g₂.Keeps g' := (g₂.keeps_nameRoot name id).trans hkeeps
      refine ⟨hb', (hl.extends hb.rooted.forest).grows.toKeeps.trans hlater, ?_⟩
      exact List.forall_mem_cons.mpr ⟨⟨id, _, g₂, hb.rooted.forest, hl, hlater⟩, hstores⟩
    next => cases h

/-- A reference to a component stands for the same schema wherever it is written. -/
theorem resolve_componentReference (hb : g.Built) (hid : id < g.size) (rest : String) :
    g.resolve (some id) (componentReference rest) = g.resolve none (componentReference rest) := by
  obtain ⟨root, hroot⟩ := hb.exists_root hid
  obtain ⟨rest', htrim⟩ := trim_componentReference rest
  have hlocate : g.locate (some id) ("#" ++ ("/components/schemas/" ++ rest')) =
      g.locate none ("#" ++ ("/components/schemas/" ++ rest')) := by
    rw [locate, locate, Reference.splitFragment_hash, hroot]
    exact resolveFragment_components g _ _ rest'
  rw [resolve, resolve, htrim, hlocate]

end Graph

/-! ## The two paths -/

section

variable {g : Graph} {id : NodeId} {ms : List (String × Value)} {r : String}

/-- A node with a `$ref` has the types that its members declare, and no inferred ones. -/
theorem ReadsObject.reference {S : Value → NodeId → Prop} {n : Node} (h : ReadsObject S ms n)
    (hkeys : (ms.map Prod.fst).Nodup) (href : Entries.get? "$ref" ms = some (.string r)) :
    n.meaning = .reference r ∧ n.types = shownTypes ms := by
  have htext : (n.text .ref).map Value.string = some (.string r) := by
    have hplain := h.plainValue? hkeys (k := .text .ref) rfl (by simp)
    rw [show (Keyword.text .ref).word = "$ref" from rfl, href] at hplain
    exact hplain
  obtain ⟨text, htext, he⟩ := Option.map_eq_some_iff.mp htext
  cases he
  constructor
  · rw [Node.meaning, h.boolean hkeys, htext]
  · have htypes := congrArg Prod.fst (h.types hkeys)
    rw [htext] at htypes
    simpa using htypes

/-- The classifier of the schemas of a graph, all of them in scope. -/
def Classifier.ofComponents (g : Graph) : Classifier :=
  { graph := g, scope := some (.buildAll g) }

/-- The types of the schema that a reference from outside stands for; none if it stands for none. -/
def targetTypes (g : Graph) (reference : String) : TypeSet :=
  ((g.resolve none reference).map (Classifier.ofComponents g).types).getD .empty

/-- A reference from outside has the types of its target alone. -/
theorem valueTypes_of_reference (href : Entries.get? "$ref" ms = some (.string r)) :
    valueTypes (.object ms) g (.buildAll g) = targetTypes g r := by
  have hmember : ((Value.object ms).member? "$ref").bind Value.string? = some r := by
    rw [Value.member?, href]
    rfl
  rw [valueTypes, targetTypes]
  simp only [hmember]
  cases g.resolve none r <;> rfl

/-- A node has the types of the component that it refers to, if it is not on the way from there, or
those that its members declare. -/
theorem Graph.Stores.types_reference {rest : String} (hb : g.Built) (h : g.Stores (.object ms) id)
    (hkeys : (ms.map Prod.fst).Nodup)
    (href : Entries.get? "$ref" ms = some (.string (componentReference rest)))
    (haway : ∀ t, g.resolve none (componentReference rest) = some t →
      ¬ Relation.ReflTransGen (Classifier.ofComponents g).Edge t id) :
    (Classifier.ofComponents g).types id =
      if (targetTypes g (componentReference rest)).isEmpty then shownTypes ms
      else targetTypes g (componentReference rest) := by
  obtain ⟨n, hnode, hn⟩ := h.object
  obtain ⟨hm, htypes⟩ := hn.reference hkeys href
  have hid : id < g.size := Graph.lt_size_of_node? hnode
  have htarget : (Classifier.ofComponents g).target? id =
      g.resolve none (componentReference rest) := by
    have hnode' : (Classifier.ofComponents g).graph.node? id = some n := hnode
    rw [Classifier.target?, hnode', Option.map_some, hm]
    exact Graph.resolve_componentReference hb hid rest
  rw [Classifier.types, Classifier.typesBelow_succ, if_neg List.not_mem_nil,
    Classifier.combine_reference hnode (by rw [Node.isReference, hm]), htypes, htarget]
  have hsame : (g.resolve none (componentReference rest)).map
      ((Classifier.ofComponents g).typesBelow (Classifier.ofComponents g).graph.size [id]) =
        (g.resolve none (componentReference rest)).map (Classifier.ofComponents g).types := by
    cases ht : g.resolve none (componentReference rest) with
    | none => rfl
    | some t =>
      have hedge : (Classifier.ofComponents g).Edge id t :=
        Classifier.edge_of_target? (htarget.trans ht)
      have hfree := Classifier.typesBelow_eq_types
        (Classifier.unvisited_step hedge List.not_mem_nil (Classifier.unvisited_nil_lt _))
        fun n hn => by
          rw [List.mem_singleton.mp hn]
          exact haway t ht
      rw [Option.map_some, Option.map_some, hfree]
  rw [hsame]
  rfl

/-- A reference to a component from outside and a node with the same members have the same types
exactly if something is known of the component or the members declare none. The node has the types
that its members declare where nothing is known of the component, and the reference has none. -/
theorem valueTypes_componentReference {entries : List (String × Value)} {rest : String}
    (hg : Graph.ofNamedValues entries = .ok g) (hkeys : (ms.map Prod.fst).Nodup)
    (href : Entries.get? "$ref" ms = some (.string (componentReference rest))) :
    valueTypes (.object ms) g (.buildAll g) = targetTypes g (componentReference rest) ∧
    ∀ id, g.Stores (.object ms) id →
      (∀ t, g.resolve none (componentReference rest) = some t →
        ¬ Relation.ReflTransGen (Classifier.ofComponents g).Edge t id) →
      ((Classifier.ofComponents g).types id =
        if (targetTypes g (componentReference rest)).isEmpty then shownTypes ms
        else targetTypes g (componentReference rest)) ∧
      (valueTypes (.object ms) g (.buildAll g) = (Classifier.ofComponents g).types id ↔
        (targetTypes g (componentReference rest)).isEmpty = false ∨
          (declaredTypes (Entries.get? "type" ms)).isEmpty = true) := by
  have hb : g.Built := (Graph.built_of_insertAllNamed .empty hg).1
  refine ⟨valueTypes_of_reference href, fun id hid haway => ?_⟩
  have htypes := hid.types_reference hb hkeys href haway
  refine ⟨htypes, ?_⟩
  rw [valueTypes_of_reference href, htypes, ← isEmpty_shownTypes]
  cases htarget : (targetTypes g (componentReference rest)).isEmpty with
  | false => simp
  | true =>
    rw [if_pos rfl, TypeSet.isEmpty_iff.mp htarget, TypeSet.isEmpty_iff]
    exact ⟨fun h => .inr h.symm, fun h => (h.resolve_left Bool.noConfusion).symm⟩

/-- The members of a schema that refers to a component and declares a type. -/
def referring (name : String) : List (String × Value) :=
  [("$ref", .string (componentReference name)), ("type", .string "array")]

/-- Two components: a text and a schema that refers to a component. -/
def textAndAlias (name : String) : List (String × Value) :=
  [("Text", .object [("type", .string "string")]), ("Alias", .object (referring name))]

/-- The graph of these components. -/
def aliasGraph (name : String) : Graph :=
  (Graph.ofNamedValues (textAndAlias name)).toOption.getD {}

theorem aliasGraph_eq (name : String)
    (h : (Graph.ofNamedValues (textAndAlias name)).isOk = true) :
    Graph.ofNamedValues (textAndAlias name) = .ok (aliasGraph name) := by
  obtain ⟨g, hg⟩ := exists_of_isOk h
  rw [aliasGraph, hg]
  rfl

theorem valueTypes_componentReference_text :
    ∃ id, (aliasGraph "Text").Stores (.object (referring "Text")) id ∧
      (Classifier.ofComponents (aliasGraph "Text")).types id = .single "string" ∧
      valueTypes (.object (referring "Text")) (aliasGraph "Text") (.buildAll (aliasGraph "Text")) =
        .single "string" := by
  have hg := aliasGraph_eq "Text" (by decide +kernel)
  have hkeys : ((referring "Text").map Prod.fst).Nodup := by decide
  have href : Entries.get? "$ref" (referring "Text") = some (.string (componentReference "Text")) :=
    rfl
  obtain ⟨-, -, hstored⟩ := Graph.built_of_insertAllNamed .empty hg
  obtain ⟨id, hid⟩ := hstored ("Alias", .object (referring "Text")) (by simp [textAndAlias])
  have htarget : (aliasGraph "Text").resolve none (componentReference "Text") = some 0 := by
    decide +kernel
  have htypes : targetTypes (aliasGraph "Text") (componentReference "Text") = .single "string" := by
    decide +kernel
  have hend : (Classifier.ofComponents (aliasGraph "Text")).edges 0 = [] := by decide +kernel
  have hinline : ((aliasGraph "Text").node? 0).map Node.meaning = some .inline := by decide +kernel
  obtain ⟨hvalue, hnode⟩ := valueTypes_componentReference hg hkeys href
  refine ⟨id, hid, ?_, hvalue.trans htypes⟩
  rw [(hnode id hid fun t ht hreach => ?_).1, htypes]
  · rfl
  · rw [htarget] at ht
    cases ht
    obtain rfl | ⟨m, hm, -⟩ := hreach.cases_head
    · obtain ⟨n, hn, hread⟩ := hid.object
      rw [hn, Option.map_some, (hread.reference hkeys href).1] at hinline
      cases hinline
    · rw [Classifier.Edge, hend] at hm
      cases hm

/-- A reference to a missing component has no types, whatever type is declared beside it. -/
theorem not_valueTypes_eq_types :
    ∃ g, Graph.ofNamedValues (textAndAlias "Missing") = .ok g ∧
      g.resolve none (componentReference "Missing") = none ∧
      shownTypes (referring "Missing") = .single "array" ∧
      (Classifier.ofComponents g).types 1 = .single "array" ∧
      valueTypes (.object (referring "Missing")) g (.buildAll g) = .empty := by
  refine ⟨_, aliasGraph_eq "Missing" (by decide +kernel), ?_, ?_, ?_, ?_⟩
  all_goals decide +kernel

end

end OpenApi.Schema
