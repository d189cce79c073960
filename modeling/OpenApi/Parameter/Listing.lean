import OpenApi.Origin
import OpenApi.Parameter.Resolved

/-!
# Parameter lists

The parameters that a list stands for in the document it is written in. References are followed
through the components of that document; one that leads nowhere is left out, as are headers that
have a meaning of their own. No two parameters of a list have one name and location. The parameters
of an operation replace those of its path item.
-/

namespace OpenApi.Parameter

/-! ## References -/

/-- The entry that a reference names in the components of a document, and its key there. -/
def entry? (o : Origin) (reference : String) : Option (String × Entry) :=
  match Reference.component? reference "parameters" with
  | none => none
  | some r =>
    if o.owns r then (o.components.parameters.get? r.key).map fun entry => (r.key, entry) else none

/-- The definition with another description, if one is given. -/
def Definition.describe (d : Definition) (description : Option String) : Definition :=
  { d with description := description.or d.description }

/-- Follows references at most the given number of steps, past no key twice. The description of a
reference takes the place of its target's. -/
def followBelow (o : Origin) : Nat → List String → String → Option Definition
  | 0, _, _ => none
  | fuel + 1, visited, reference =>
    match entry? o reference with
    | none => none
    | some (key, entry) =>
      if visited.contains key then none
      else
        match entry with
        | .inline d => some d
        | .reference next =>
          (followBelow o fuel (key :: visited) next.target).map (·.describe next.description)

/-- The definition that a reference stands for. No path passes more keys than there are. -/
def follow (o : Origin) (reference : String) : Option Definition :=
  followBelow o (o.components.parameters.size + 1) [] reference

/-- The definition that an entry stands for. -/
def Entry.definition? (o : Origin) : Entry → Option Definition
  | .inline d => some d
  | .reference r => (follow o r.target).map (·.describe r.description)

/-! ## Lists -/

/-- Headers that are described elsewhere; parameters of these names do not count. -/
def ignoredHeaders : List String := ["accept", "content-type", "authorization"]

/-- Whether a definition does not count. -/
def Definition.isIgnored (d : Definition) : Bool :=
  d.location == .header && ignoredHeaders.contains (Text.asciiLower d.name)

/-- The definitions that the entries of a list stand for, those that do not count left out. -/
def definitions (o : Origin) (entries : List Entry) : List Definition :=
  (entries.filterMap (Entry.definition? o)).filter fun d => !d.isIgnored

/-- Resolves definitions in order, given the keys of those before. -/
def resolveAfter (c : Components) (seen : List (Location × String)) :
    List Definition → Except Invalid (List Resolved)
  | [] => .ok []
  | d :: ds =>
    if seen.contains (d.location, d.name) then
      .error { name := d.name, fault := .declaredTwice d.location }
    else do
      let p ← d.resolve c
      let ps ← resolveAfter c ((d.location, d.name) :: seen) ds
      return p :: ps

/-- The parameters of a list. -/
def resolveAll (o : Origin) (entries : List Entry) : Except Invalid (List Resolved) :=
  resolveAfter o.components [] (definitions o entries)

/-! ## Merging -/

/-- Replaces the parameter with the same key, or appends a new one. -/
def put (p : Resolved) : List Resolved → List Resolved
  | [] => [p]
  | q :: qs => if q.key = p.key then p :: qs else q :: put p qs

/-- The common parameters with an operation's own in place of those of the same key, then the other
own ones. -/
def merge (common own : List Resolved) : List Resolved := own.foldl (fun ps p => put p ps) common

end OpenApi.Parameter
