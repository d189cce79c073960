import OpenApi.Components
import OpenApi.Reference

/-!
# Origins

The document in which something was written: its components, and its name if it has one. Component
references are read from there.
-/

namespace OpenApi

/-- A document, as references in it see it. -/
structure Origin where
  components : Components := {}
  self : Option String := none
deriving Inhabited

namespace Origin

/-- A document name that is written in the document, resolved from there. -/
def resolve (o : Origin) (document : String) : String := Reference.resolveAgainst document o.self

/-- Whether a resolved document name is that of the document itself. -/
def isSelf (o : Origin) (document : String) : Bool :=
  match o.self with
  | some self => Reference.sameDocument document self
  | none => false

/-- Whether a component reference stays in the document. -/
def owns (o : Origin) (r : Reference.Component) : Bool :=
  match r.document with
  | none => true
  | some document => o.isSelf (o.resolve document)

end Origin

end OpenApi
