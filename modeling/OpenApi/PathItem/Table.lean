import OpenApi.PathItem.Chain

/-!
# Tables of path items

A fixed list of path items of other documents, as a lookup. The first row with the document and key
counts.
-/

namespace OpenApi.PathItem

/-- A row: the document and key that a path item is found under. A row without document is not found
by any reference. -/
structure Row where
  document : Option String
  key : String
  found : External
deriving Inhabited

/-- A table of path items. -/
abbrev Table := List Row

namespace Table

/-- The path item under a document and key. -/
def find? (t : Table) (document key : String) : Option External :=
  (List.find? (fun row : Row => row.document == some document && row.key == key) t).map (·.found)

/-- The number of path items that chains through the table may come to: those of the rows, and those
among the components of the rows. -/
def pathItemCount (t : Table) : Nat :=
  List.length t +
    (List.flatMap (fun row : Row => (row.found.components.getD {}).pathItems.values) t).length

end Table

end OpenApi.PathItem
