import OpenApi.Operation

/-!
# Path items

A path item holds the operations of a path and what they share, or refers to another path item.
-/

namespace OpenApi

open Json

/-- A path item as it is written. -/
structure PathItem where
  reference : Option String := none
  summary : Option String := none
  description : Option String := none
  servers : List Server := []
  parameters : List Parameter.Entry := []
  fixed : FixedMethod → Option Operation := fun _ => none
  additional : OrderedMap Operation := .empty
  extensions : OrderedMap Value := .empty
deriving Inhabited

namespace PathItem

/-- The fields of a path item. -/
def fields : List String :=
  ["$ref", "summary", "description", "servers", "parameters"] ++
    FixedMethod.all.map FixedMethod.field ++ ["additionalOperations"]

/-- Reads the operation in the slot of a method. -/
def slotOf? (ms : Members) (m : FixedMethod) : Option (Option Operation) :=
  ms.optional m.field Operation.ofValue?

/-- Reads a path item. -/
def ofValue? (v : Value) : Option PathItem := do
  let ms : Members ← v.members?
  if FixedMethod.all.all fun m => (slotOf? ms m).isSome then
    return {
      reference := ← ms.optional "$ref" Value.string?
      summary := ← ms.optional "summary" Value.string?
      description := ← ms.optional "description" Value.string?
      servers := ← ms.withDefault "servers" [] (Value.list? Server.ofValue?)
      parameters := ← ms.withDefault "parameters" [] (Value.list? Parameter.Entry.ofValue?)
      fixed := fun m => (slotOf? ms m).join
      additional := ← ms.withDefault "additionalOperations" .empty (Value.map? Operation.ofValue?)
      extensions := ms.others fields }
  else none

/-- A path item as it is written. -/
def toValue (p : PathItem) : Value :=
  .ofFields ([
    .fieldIfSet "$ref" .string p.reference,
    .fieldIfSet "summary" .string p.summary,
    .fieldIfSet "description" .string p.description,
    .fieldIfAny "servers" Server.toValue p.servers,
    .fieldIfAny "parameters" Parameter.Entry.toValue p.parameters] ++
    FixedMethod.all.map (fun m => .fieldIfSet m.field Operation.toValue (p.fixed m)) ++
    [.fieldIfEntries "additionalOperations" Operation.toValue p.additional]) p.extensions

/-- The operations of the fixed methods in their order. -/
def fixedOperations (p : PathItem) : List (Method × Operation) :=
  FixedMethod.all.filterMap fun m => (p.fixed m).map fun operation => (.fixed m, operation)

/-- The additional operations whose method is a token and not a fixed method in some case. -/
def customOperations (p : PathItem) : List (Method × Operation) :=
  (p.additional.entries.filter fun e => Method.isToken e.1 && !Method.isReserved e.1).map fun e =>
    (.custom e.1, e.2)

/-- All operations in their order. -/
def operations (p : PathItem) : List (Method × Operation) :=
  p.fixedOperations ++ p.customOperations

/-- Whether any operation is declared. -/
def hasOperations (p : PathItem) : Bool := !p.fixedOperations.isEmpty || !p.additional.isEmpty

end PathItem

end OpenApi
