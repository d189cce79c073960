import OpenApi.Yaml.Core
import OpenApi.Yaml.Event

/-!
# Reading YAML

The JSON value of a YAML document. Keys are read as texts, whatever they look like, and have to be
scalars; of equal keys the last value counts. A tag decides how a scalar is read, and a tag of the
document's own is refused. Collections nest at most 128 levels deep, and aliases may be followed a
hundred times for each event of the document.
-/

namespace OpenApi.Yaml

open Json

/-! ## Anchors -/

/-- The anchors met so far: the number of each name, and where the node with a number begins, the
latest first. -/
structure Anchors where
  numbers : OrderedMap Nat := .empty
  places : List (Nat × Nat) := []
deriving Inhabited

/-- Notes an anchor of the node that begins at a place. Its number is the count of names so far, so
that a name used again has the number of the next new name too; the later place counts. -/
def Anchors.note (a : Anchors) (p : Properties) (place : Nat) : Anchors :=
  match p.anchor with
  | none => a
  | some name =>
    let number := a.numbers.size
    { numbers := a.numbers.insert name number, places := (number, place) :: a.places }

/-- The properties of an event. -/
def Event.properties {ref : Type} : Event ref → Properties
  | .scalar p _ _ | .sequenceStart p | .mappingStart p => p
  | _ => {}

/-- An event whose alias, if it is one, is known. -/
def Event.numbered? (a : Anchors) : Event String → Option (Event Nat)
  | .alias name => (a.numbers.get? name).map .alias
  | .scalar p plain text => some (.scalar p plain text)
  | .sequenceStart p => some (.sequenceStart p)
  | .sequenceEnd => some .sequenceEnd
  | .mappingStart p => some (.mappingStart p)
  | .mappingEnd => some .mappingEnd

/-- The events with numbers for names in aliases; none if an alias has no anchor before it. -/
def numbered? (a : Anchors) (place : Nat) :
    List (Event String) → Option (List (Event Nat) × Anchors)
  | [] => some ([], a)
  | e :: es => do
    let a := a.note e.properties place
    let numbered ← e.numbered? a
    let (rest, a) ← numbered? a (place + 1) es
    return (numbered :: rest, a)

/-! ## Scalars -/

/-- What the tags of the core schema begin with. -/
def coreTag (name : String) : String := "tag:yaml.org,2002:" ++ name

/-- The value of a scalar. -/
def scalarValue? (tag : Option String) (plain : Bool) (text : String) : Option Value :=
  match tag with
  | none => if plain then plainValue? text else some (.string text)
  | some tag =>
    if Text.startsWith "!" tag then none
    else if tag = coreTag "bool" then (boolOfWord? text).map .bool
    else if tag = coreTag "int" then (integerValue? text.toList).join
    else if tag = coreTag "float" then doubleValue? text.toList
    else if tag = coreTag "null" then if isNullWord text then some .null else none
    else some (.string text)

/-- Whether a collection may have a tag. -/
def allowsTag (p : Properties) : Bool := !p.tag.any (Text.startsWith "!")

/-! ## Documents -/

/-- The events of a document, where its anchored nodes begin, and how many aliases may be
followed. -/
structure Document where
  events : List (Event Nat)
  places : List (Nat × Nat)

namespace Document

/-- How many aliases may be followed. -/
def maxJumps (d : Document) : Nat := 100 * d.events.length

/-- The events from the node on that an alias stands for. -/
def target? (d : Document) (number : Nat) : Option (List (Event Nat)) :=
  (d.places.lookup number).map d.events.drop

/-- Collections nest at most so deep. -/
def maxDepth : Nat := 128

/-- What is read, the events left, and how many aliases were followed. -/
abbrev Step (α : Type) := α × List (Event Nat) × Nat

/-- Follows an alias, if it may be. -/
def follow? (d : Document) (jumps number : Nat) : Option (List (Event Nat)) :=
  if jumps < d.maxJumps then d.target? number else none

/-- The text of a key. -/
def key? (d : Document) (jumps : Nat) : List (Event Nat) → Option (Step String)
  | .scalar _ _ text :: es => some (text, es, jumps)
  | .alias number :: es =>
    match d.follow? jumps number with
    | some (.scalar _ _ text :: _) => some (text, es, jumps + 1)
    | _ => none
  | _ => none

mutual

/-- The value of the node that comes next, at most `depth` levels deep. -/
def value? (d : Document) : Nat → Nat → Nat → List (Event Nat) → Option (Step Value)
  | 0, _, _, _ => none
  | fuel + 1, depth, jumps, events =>
    match events with
    | .scalar p plain text :: es => (scalarValue? p.tag plain text).map (·, es, jumps)
    | .alias number :: es => do
      let target ← d.follow? jumps number
      let (v, _, jumps) ← value? d fuel depth (jumps + 1) target
      return (v, es, jumps)
    | .sequenceStart p :: es =>
      if depth = 0 || !allowsTag p then none
      else do
        let (items, es, jumps) ← items? d fuel (depth - 1) jumps es
        return (.array items, es, jumps)
    | .mappingStart p :: es =>
      if depth = 0 || !allowsTag p then none
      else do
        let (members, es, jumps) ← members? d fuel (depth - 1) jumps es
        return (.ofMap (.ofList members), es, jumps)
    | _ => none

/-- The values of the nodes up to the end of a sequence. -/
def items? (d : Document) : Nat → Nat → Nat → List (Event Nat) → Option (Step (List Value))
  | 0, _, _, _ => none
  | fuel + 1, depth, jumps, events =>
    match events with
    | .sequenceEnd :: es => some ([], es, jumps)
    | es => do
      let (v, es, jumps) ← value? d fuel depth jumps es
      let (vs, es, jumps) ← items? d fuel depth jumps es
      return (v :: vs, es, jumps)

/-- The keys and values of the nodes up to the end of a mapping. -/
def members? (d : Document) :
    Nat → Nat → Nat → List (Event Nat) → Option (Step (List (String × Value)))
  | 0, _, _, _ => none
  | fuel + 1, depth, jumps, events =>
    match events with
    | .mappingEnd :: es => some ([], es, jumps)
    | es => do
      let (key, es, jumps) ← d.key? jumps es
      let (v, es, jumps) ← value? d fuel depth jumps es
      let (ms, es, jumps) ← members? d fuel depth jumps es
      return ((key, v) :: ms, es, jumps)

end

/-- More calls inside one another than reading needs: on each level the events of one node, and one
alias. -/
def enoughFuel (d : Document) : Nat := (maxDepth + 2) * (d.events.length + 3)

/-- The value of a document; without events it is null. -/
def toValue? (d : Document) : Option Value :=
  match d.events with
  | [] => some .null
  | events => (d.value? d.enoughFuel maxDepth 0 events).map (·.1)

end Document

/-- The value of a YAML text, if it is one document that JSON can hold. -/
def read? (text : String) : Option Value := do
  let (events, anchors) ← (← events? text) |> numbered? {} 0
  Document.toValue? { events, places := anchors.places }

end OpenApi.Yaml
