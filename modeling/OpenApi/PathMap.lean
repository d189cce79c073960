import OpenApi.PathItem.Basic
import OpenApi.ReadFault

/-!
# Path maps

The path items of a document by path, or by name of a webhook, apart from extensions of the map
itself.
-/

namespace OpenApi

open Json

/-- Path items in order, and the extensions of their map. -/
structure PathMap where
  items : OrderedMap PathItem := .empty
  extensions : OrderedMap Value := .empty
deriving Inhabited

namespace PathMap

/-- Reads an entry; a key with `x-` at its front is an extension. -/
def readEntry (p : PathMap) (key : String) (v : Value) : Except ReadFault PathMap :=
  if Text.startsWith "x-" key then
    .ok { p with extensions := p.extensions.insert key v }
  else
    match PathItem.ofValue? v with
    | some item => .ok { p with items := p.items.insert key item }
    | none => .error (.pathItem key)

/-- Reads a path map. -/
def ofValue (v : Value) : Except ReadFault PathMap := readMembers readEntry {} v

/-- A path map as it is written, its extensions last. -/
def toValue (p : PathMap) : Value :=
  .ofFields [p.items.entries.map fun e => (e.1, e.2.toValue)] p.extensions

end PathMap

end OpenApi
