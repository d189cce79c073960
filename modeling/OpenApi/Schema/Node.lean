import OpenApi.Json.Value
import OpenApi.Schema.Keyword
import OpenApi.Text
import OpenApi.TypeSet

/-!
# Schema nodes

One schema, its subschemas being numbers of other nodes of a graph. What a keyword of some kind
holds is given by one function per kind.
-/

namespace OpenApi.Schema

open Json

/-- The number of a node in its graph. -/
abbrev NodeId := Nat

/-- A function changed at one argument. -/
def update [DecidableEq κ] (f : κ → α) (k : κ) (a : α) : κ → α :=
  fun k' => if k' = k then a else f k'

@[simp] theorem update_self [DecidableEq κ] (f : κ → α) (k : κ) (a : α) : update f k a k = a := by
  simp [update]

theorem update_of_ne [DecidableEq κ] (f : κ → α) {k k' : κ} (a : α) (h : k' ≠ k) :
    update f k a k' = f k' := by
  simp [update, h]

/-- A schema. Where `boolean` is set, nothing else counts. The types are declared, or inferred from
other keywords. -/
structure Node where
  boolean : Option Bool := none
  text : TextKeyword → Option String := fun _ => none
  types : TypeSet := .empty
  typesInferred : Bool := false
  enumeration : Option (List Value) := none
  constant : Option Value := none
  number : NumberKeyword → Option Number := fun _ => none
  bound : BoundKeyword → Option Value := fun _ => none
  count : CountKeyword → Option Nat := fun _ => none
  uniqueItems : Option Bool := none
  required : List String := []
  child : ChildKeyword → Option NodeId := fun _ => none
  list : ListKeyword → List NodeId := fun _ => []
  map : MapKeyword → OrderedMap NodeId := fun _ => .empty
  annotations : OrderedMap Value := .empty
  extensions : OrderedMap Value := .empty
  custom : OrderedMap Value := .empty
deriving Inhabited

/-- What a node stands for: a reference is followed before any other keyword is looked at. -/
inductive Meaning where
  | boolean (value : Bool)
  | reference (target : String)
  | dynamicReference (target : String)
  | inline
deriving DecidableEq, Inhabited

/-- The text without white space around it, unless nothing is left. -/
def nonBlank? (text : Option String) : Option String :=
  (text.map Text.trim).filter fun t => !t.isEmpty

namespace Node

/-! ## Constructors -/

/-- The schema that accepts everything or nothing. -/
def ofBool (value : Bool) : Node := { boolean := some value }

/-- A node with one declared type. -/
def typed (name : String) : Node := { types := .single name }

/-- A node with a `$ref`. -/
def reference (target : String) : Node := { text := update (fun _ => none) .ref (some target) }

/-! ## Views -/

/-- What the node stands for. -/
def meaning (n : Node) : Meaning :=
  match n.boolean, n.text .ref, n.text .dynamicRef with
  | some b, _, _ => .boolean b
  | none, some target, _ => .reference target
  | none, none, some target => .dynamicReference target
  | none, none, none => .inline

/-- The `$id` that opens a resource. -/
def resourceId? (n : Node) : Option String := nonBlank? (n.text .id)

/-- The name that the node declares for dynamic references. -/
def dynamicAnchor? (n : Node) : Option String := nonBlank? (n.text .dynamicAnchor)

/-- Whether the node declares a name, for static or dynamic references. -/
def declares (n : Node) (name : String) : Bool :=
  (n.text .anchor).map Text.trim == some name || n.dynamicAnchor? == some name

/-- The subschemas in a slot. -/
def slot (n : Node) : Slot → List NodeId
  | .child k => (n.child k).toList
  | .list k => n.list k
  | .map k => (n.map k).values

/-- The subschemas in traversal order. -/
def subschemas (n : Node) : List NodeId :=
  if n.boolean.isSome then [] else Slot.traversal.flatMap n.slot

end Node

end OpenApi.Schema
