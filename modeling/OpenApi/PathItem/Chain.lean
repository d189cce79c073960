import OpenApi.Origin

/-!
# Chains of path item references

A path item may refer to one among the components of its own document or of another one, which may
refer further. A reference without document, or to the document it stands in, is looked up there;
one that names another document, or whose key the own document lacks, is left to a lookup from
outside, which may act, and may fail, which is the same as finding nothing. A chain that comes to
one key of one document twice leads nowhere.
-/

namespace OpenApi.PathItem

/-! ## Lookup -/

/-- A path item of another document: the components and the name of that document, as far as they
are known. -/
structure External where
  item : PathItem
  components : Option Components := none
  self : Option String := none
deriving Inhabited

/-- A lookup of the path item that another document has under a key. -/
abbrev Lookup (m : Type → Type) := (document : String) → (key : String) → m (Option External)

/-- A lookup that may fail. -/
abbrev Resolver (ε : Type) (m : Type → Type) :=
  (document : String) → (key : String) → m (Except ε (Option External))

namespace Resolver

/-- What an answer finds; a failure finds nothing. -/
def found? {ε : Type} : Except ε (Option External) → Option External
  | .ok found => found
  | .error _ => none

/-- The lookup of a resolver, in which failures are misses. -/
def lookup {ε : Type} {m : Type → Type} [Monad m] (r : Resolver ε m) : Lookup m :=
  fun document key => return found? (← r document key)

end Resolver

/-- A path item and where it was found. -/
structure Located where
  item : PathItem
  origin : Origin
deriving Inhabited

/-! ## Steps -/

/-- Where a reference leads: the key, the document that is written, resolved, and whether that is
the one in which the reference stands. -/
structure Target where
  document : Option String
  key : String
  isLocal : Bool
deriving DecidableEq, Inhabited

namespace Target

/-- The target of a reference that is written in a document. -/
def ofReference? (o : Origin) (reference : String) : Option Target :=
  (Reference.component? reference "pathItems").map fun r => {
    document := r.document.map o.resolve
    key := r.key
    isLocal := o.owns r }

/-- The document that a target is counted under, without fragment. -/
def countedDocument (t : Target) (o : Origin) : String :=
  Reference.stripFragment (((if t.isLocal then o.self else t.document)).getD "")

/-- What a target is counted under: its document and key. -/
def mark (t : Target) (o : Origin) : String × String := (t.countedDocument o, t.key)

/-- The target among the components of the document itself. -/
def local? (t : Target) (o : Origin) : Option Located :=
  if t.isLocal then
    (o.components.pathItems.get? t.key).map fun item => { item, origin := o }
  else none

/-- A path item from outside that was found under a document name. -/
def External.located (e : External) (document : String) : Located where
  item := e.item
  origin := { components := e.components.getD {}, self := e.self.or (some document) }

variable {m : Type → Type} [Monad m]

/-- Where a target is found: in the document itself, else from outside under the document that the
reference names. -/
def find? (t : Target) (lookup : Option (Lookup m)) (o : Origin) : m (Option Located) :=
  match t.local? o, t.document, lookup with
  | some found, _, _ => pure (some found)
  | none, some document, some lookup => do
    return (← lookup document t.key).map (External.located · document)
  | none, _, _ => pure none

end Target

/-! ## Chains -/

/-- The referrers of a chain from the first on, and the path item at its end. -/
structure Chain where
  referrers : List Located
  target : Located
deriving Inhabited

/-- A chain with a referrer in front. -/
def Chain.cons (referrer : Located) (c : Chain) : Chain :=
  { c with referrers := referrer :: c.referrers }

variable {m : Type → Type} [Monad m]

/-- Follows references for at most the given number of path items, past no mark twice. -/
def followBelow (lookup : Option (Lookup m)) :
    Nat → List (String × String) → Located → m (Option Chain)
  | 0, _, _ => pure none
  | fuel + 1, visited, here =>
    match here.item.reference with
    | none => pure (some { referrers := [], target := here })
    | some reference =>
      match Target.ofReference? here.origin reference with
      | none => pure none
      | some t =>
        let mark := t.mark here.origin
        if visited.contains mark then pure none
        else do
          match ← t.find? lookup here.origin with
          | none => return none
          | some next =>
            return (← followBelow lookup fuel (mark :: visited) next).map (Chain.cons here)

end OpenApi.PathItem
