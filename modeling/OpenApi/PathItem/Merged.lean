import OpenApi.PathItem.Chain

/-!
# Merged path items

The path item that a chain of references stands for: the operations of its end, with what the
referrers say in place of what the end says. The earlier of two referrers wins. A referrer's
parameters are still resolved in the document that the referrer was found in.
-/

namespace OpenApi.PathItem

/-- A path item without reference, where its operations were found, and where its parameters were
found if a referrer gave them. -/
structure Merged where
  item : PathItem
  origin : Origin
  parameterOrigin : Option Origin := none
deriving Inhabited

namespace Merged

/-- The path item at the end of a chain. -/
def ofTarget (found : Located) : Merged := { item := found.item, origin := found.origin }

/-- The first list, unless it is empty. -/
def firstNonempty (a b : List α) : List α := if a.isEmpty then b else a

/-- A path item with what a referrer says. -/
def overrideItem (referrer target : PathItem) : PathItem :=
  { target with
    reference := none
    summary := referrer.summary.or target.summary
    description := referrer.description.or target.description
    parameters := firstNonempty referrer.parameters target.parameters
    servers := firstNonempty referrer.servers target.servers
    extensions := target.extensions.insertAll referrer.extensions.entries }

/-- A merged path item with what a referrer says. -/
def override (referrer : Located) (r : Merged) : Merged where
  item := overrideItem referrer.item r.item
  origin := r.origin
  parameterOrigin :=
    if referrer.item.parameters.isEmpty then r.parameterOrigin else some referrer.origin

/-- The path item that a chain stands for. -/
def ofChain (c : Chain) : Merged := c.referrers.foldr override (ofTarget c.target)

/-- The document in which the parameters are resolved. -/
def parametersOrigin (r : Merged) : Origin := r.parameterOrigin.getD r.origin

end Merged

/-! ## Resolution -/

/-- What path items are resolved in: their document, a lookup in other documents, and how many path
items a chain may have. -/
structure Context (m : Type → Type) where
  origin : Origin
  lookup : Option (Lookup m) := none
  limit : Nat

variable {m : Type → Type} [Monad m]

/-- The path item that a path item stands for. -/
def resolve (ctx : Context m) (item : PathItem) : m (Option Merged) := do
  return (← followBelow ctx.lookup ctx.limit [] { item, origin := ctx.origin }).map Merged.ofChain

end OpenApi.PathItem
