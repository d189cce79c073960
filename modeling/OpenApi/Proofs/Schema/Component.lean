import OpenApi.Proofs.Schema.Insertion
import OpenApi.Proofs.Schema.ValueTypes

/-!
# References to components

The path of a schema below a component is a reference to it from everywhere: nothing in the name of
the component or in the keys on the path is mistaken for a part of the reference.

* `Graph.Made`: the graphs that any calls build, with nodes pushed and replaced at will and values
  loaded with or without success; a graph with a named schema has a first top-level one;
* `Graph.resolveFragment_component`: the fragment of such a path is followed from the component;
* `Graph.resolve_path`: so is the reference, on any node and on none.
-/

namespace OpenApi.Schema

open Json Reference

/-- The reference to what the given keys lead to from a component. -/
def componentPath (name : String) (segments : List String) : String :=
  componentReference (Parameter.escapeUnreserved (escapeSegment name) ++ pointerText segments)

theorem componentReference_append (key rest : String) :
    componentReference (key ++ rest) =
      "#" ++ ("/" ++ "components" ++ ("/" ++ "schemas" ++ ("/" ++ key ++ rest))) := by
  simp only [← String.append_assoc]
  rfl

theorem componentPath_eq_pointer (name : String) (segments : List String) :
    componentPath name segments = pointer ("components" :: "schemas" :: name :: segments) := by
  have hcomponents : Parameter.escapeUnreserved (escapeSegment "components") = "components" := by
    decide +kernel
  have hschemas : Parameter.escapeUnreserved (escapeSegment "schemas") = "schemas" := by
    decide +kernel
  rw [componentPath, componentReference_append, pointer, pointerText_cons, pointerText_cons,
    pointerText_cons, hcomponents, hschemas]

namespace Graph

variable {g : Graph} {base id m : NodeId} {name : String} {segments : List String}

/-! ## Graphs made by calls -/

/-- The graphs that calls build: pushing and replacing nodes, registering top-level schemas, and
loading values, which may fail. -/
inductive Made : Graph → Prop
  | empty : Made {}
  | push {g : Graph} (node : Node) : Made g → Made (g.push node).2
  | setNode {g : Graph} (id : NodeId) (node : Node) : Made g → Made (g.setNode id node)
  | addRoot {g : Graph} (id : NodeId) : Made g → Made (g.addRoot id)
  | nameRoot {g : Graph} (name : String) (id : NodeId) : Made g → Made (g.nameRoot name id)
  | run {g : Graph} (call : Insertion) : Made g → Made (call.run g).2

/-- A call registers a top-level schema, or leaves those that there are and their names. -/
theorem roots_run (g : Graph) (call : Insertion) : (call.run g).2.root? ≠ none ∨
    (call.run g).2.roots = g.roots ∧ (call.run g).2.named = g.named := by
  have hload := roots_load g call.value call.pointer
  rw [call.run_eq]
  rcases hl : (load call.pointer call.value).result g with ⟨e | id, g'⟩ <;> rw [hl] at hload
  · exact .inr hload
  · exact .inl (call.root?_register_ne_none g' id)

/-- With a named schema there is a first top-level one. -/
theorem Made.root?_ne_none (hg : g.Made) (hid : g.named.get? name = some id) : g.root? ≠ none := by
  induction hg with
  | empty => cases hid
  | push node _ ih => exact ih hid
  | setNode _ node _ ih => exact ih hid
  | addRoot root _ _ => exact root?_addRoot_ne_none _ root
  | nameRoot _ root _ _ => exact root?_addRoot_ne_none _ root
  | run call _ ih =>
    rcases roots_run _ call with hroot | ⟨hroots, hnamed⟩
    · exact hroot
    · rw [hnamed] at hid
      rw [root?, hroots]
      exact ih hid

/-! ## Paths from components -/

/-- The fragment of a path from a component is followed from the component. -/
theorem resolveFragment_component (hid : g.named.get? name = some id) :
    g.resolveFragment base (pointerText ("components" :: "schemas" :: name :: segments)) =
      g.walkPointer id segments := by
  rw [resolveFragment_tokens (List.cons_ne_nil _ _) (by simp), followTokens, hid, Option.bind_some]

/-- The path of a schema below a component is a reference to it, on any node and on none. -/
theorem resolve_path (hg : g.Made) (hid : g.named.get? name = some id)
    (hwalk : g.walkPointer id segments = some m) (start : Option NodeId) :
    g.resolve start (componentPath name segments) = some m := by
  obtain ⟨base, hbase⟩ : ∃ base, (start.map g.resourceRoot).or g.root? = some base := by
    cases start with
    | some n => exact ⟨_, rfl⟩
    | none => exact Option.ne_none_iff_exists'.mp (hg.root?_ne_none hid)
  have hlocate : g.locate start (componentPath name segments) = some m := by
    rw [componentPath_eq_pointer, locate, splitFragment_pointer]
    simp only [hbase, Option.getD_some]
    exact (resolveFragment_component hid).trans hwalk
  rw [resolve, componentPath_eq_pointer, trim_pointer, ← componentPath_eq_pointer, hlocate,
    Option.some_or]

/-- A component whose name holds every mark that a reference gives a meaning to, loaded after a
fault. -/
def marked : Graph :=
  let g := (Insertion.run {} (.named "b" (.object [("if", .bool true), ("not", .null),
    ("allOf", .array [.null])]))).2
  (Insertion.run g (.named "a/~%# \u00e9" (.object
    [("properties", .object [("~1/", .bool false)])]))).2

theorem resolve_path_marked : marked.Made ∧ marked.named.get? "a/~%# \u00e9" = some 2 ∧
    marked.walkPointer 2 ["properties", "~1/"] = some 1 ∧
    componentPath "a/~%# \u00e9" ["properties", "~1/"] =
      "#/components/schemas/a~1~0%25%23%20%C3%A9/properties/~01~1" ∧
    ∀ start, marked.resolve start "#/components/schemas/a~1~0%25%23%20%C3%A9/properties/~01~1" =
      some 1 := by
  have hmade : marked.Made := .run _ (.run _ .empty)
  have hid : marked.named.get? "a/~%# \u00e9" = some 2 := by decide +kernel
  have hwalk : marked.walkPointer 2 ["properties", "~1/"] = some 1 := by decide +kernel
  have hpath : componentPath "a/~%# \u00e9" ["properties", "~1/"] =
      "#/components/schemas/a~1~0%25%23%20%C3%A9/properties/~01~1" := by decide +kernel
  refine ⟨hmade, hid, hwalk, hpath, fun start => ?_⟩
  rw [← hpath]
  exact resolve_path hmade hid hwalk start

end Graph

end OpenApi.Schema
