import OpenApi.Yaml.Lexer

/-!
# Events of YAML documents

The nodes of a document in the order of the text: a collection is opened, holds the events of its
nodes and is closed. Tags have their handles replaced. A text holds at most one document; several
are refused.

Tokens are turned into events by a list of goals, that is, of what is expected next. Each step works
on the first goal.
-/

namespace OpenApi.Yaml

/-! ## Events -/

/-- The properties of a node. -/
structure Properties where
  anchor : Option String := none
  tag : Option String := none
deriving DecidableEq, Inhabited

/-- An event of a document, whose aliases are names or something else. -/
inductive Event (ref : Type) where
  | alias (target : ref)
  | scalar (properties : Properties) (plain : Bool) (text : String)
  | sequenceStart (properties : Properties)
  | sequenceEnd
  | mappingStart (properties : Properties)
  | mappingEnd
deriving DecidableEq, Inhabited

/-- The scalar that stands where a node is left out. -/
def Event.empty {ref : Type} : Event ref := .scalar {} true ""

/-! ## Properties -/

/-- The handles that a document knows, with what they stand for. -/
abbrev Handles := List (String × String)

/-- The handles that need no directive. -/
def defaultHandles : Handles := [("!", "!"), ("!!", "tag:yaml.org,2002:")]

/-- The tag of a handle and what follows it. -/
def tagOf? (handles : Handles) (handle rest : String) : Option String :=
  if handle.isEmpty then some rest
  else (handles.lookup handle).map (· ++ rest)

/-- Takes an anchor and a tag, in either order, from the front of the tokens. -/
def properties? (handles : Handles) : List Token → Option (Properties × List Token)
  | .anchor name :: .tag handle rest :: ts | .tag handle rest :: .anchor name :: ts =>
    (tagOf? handles handle rest).map fun tag => ({ anchor := name, tag }, ts)
  | .anchor name :: ts => some ({ anchor := name }, ts)
  | .tag handle rest :: ts => (tagOf? handles handle rest).map fun tag => ({ tag }, ts)
  | ts => some ({}, ts)

/-! ## Goals -/

/-- What is expected next. A node may be in block style or not, and a sequence of block style may
stand at the column of the mapping around it. The end of a collection is its last goal. -/
inductive Goal where
  | node (block indentless : Bool)
  | blockEntries
  | indentlessEntries
  | blockKey
  | blockValue
  | flowEntries (first : Bool)
  | pairKey
  | pairValue
  | pairEnd
  | flowKey (first : Bool)
  | flowValue
  | flowEmptyValue
deriving DecidableEq, Inhabited

/-- A step towards the first goal: the events it makes, the goals in its place, and the tokens
left. -/
abbrev Step := List (Event String) × List Goal × List Token

/-- Whether the next token is one of the given ones; the end of the tokens is none. -/
def nextIn (ends : List Token) (ts : List Token) : Bool :=
  match ts with
  | t :: _ => ends.contains t
  | [] => false

/-- A node unless one of some tokens follows, then an empty one. -/
def nodeUnless (ends : List Token) (block indentless : Bool) (next : Goal) (ts : List Token) :
    Step :=
  if nextIn ends ts then ([.empty], [next], ts) else ([], [.node block indentless, next], ts)

/-- The properties of a scalar that is written out: its tag may be left to its form by an
exclamation mark alone. -/
def Properties.ofWritten (p : Properties) : Properties :=
  if p.tag = some "!" then { p with tag := none } else p

/-- A node. -/
def nodeStep? (handles : Handles) (block indentless : Bool) (ts : List Token) : Option Step :=
  match ts with
  | .alias name :: ts => some ([.alias name], [], ts)
  | ts => do
    let (p, ts) ← properties? handles ts
    let bare : Option Step := if p = {} then none else some ([.scalar p true ""], [], ts)
    match ts with
    | .blockEntry :: _ =>
      if indentless then some ([.sequenceStart p], [.indentlessEntries], ts) else bare
    | .scalar plain text :: ts => some ([.scalar p.ofWritten plain text], [], ts)
    | .flowSequenceStart :: ts => some ([.sequenceStart p], [.flowEntries true], ts)
    | .flowMappingStart :: ts => some ([.mappingStart p], [.flowKey true], ts)
    | .blockSequenceStart :: ts =>
      if block then some ([.sequenceStart p], [.blockEntries], ts) else bare
    | .blockMappingStart :: ts =>
      if block then some ([.mappingStart p], [.blockKey], ts) else bare
    | _ => bare

/-- An entry of a flow sequence, where the separator is already taken. -/
def flowEntryStep (ts : List Token) : Step :=
  match ts with
  | .flowSequenceEnd :: ts => ([.sequenceEnd], [], ts)
  | .key :: ts => ([.mappingStart {}], [.pairKey, .flowEntries false], ts)
  | ts => ([], [.node false false, .flowEntries false], ts)

/-- A key of a flow mapping, where the separator is already taken. -/
def flowKeyStep (ts : List Token) : Step :=
  match ts with
  | .flowMappingEnd :: ts => ([.mappingEnd], [], ts)
  | .key :: ts => nodeUnless [.value, .flowEntry, .flowMappingEnd] false false .flowValue ts
  | ts => ([], [.node false false, .flowEmptyValue], ts)

/-- A step towards a goal. -/
def step? (handles : Handles) (goal : Goal) (ts : List Token) : Option Step :=
  match goal, ts with
  | .node block indentless, ts => nodeStep? handles block indentless ts
  | .blockEntries, .blockEntry :: ts =>
    some (nodeUnless [.blockEntry, .blockEnd] true false .blockEntries ts)
  | .blockEntries, .blockEnd :: ts => some ([.sequenceEnd], [], ts)
  | .blockEntries, _ => none
  | .indentlessEntries, .blockEntry :: ts =>
    some (nodeUnless [.blockEntry, .key, .value, .blockEnd] true false .indentlessEntries ts)
  | .indentlessEntries, ts => some ([.sequenceEnd], [], ts)
  | .blockKey, .key :: ts =>
    some (nodeUnless [.key, .value, .blockEnd] true true .blockValue ts)
  | .blockKey, .blockEnd :: ts => some ([.mappingEnd], [], ts)
  | .blockKey, _ => none
  | .blockValue, .value :: ts =>
    some (nodeUnless [.key, .value, .blockEnd] true true .blockKey ts)
  | .blockValue, ts => some ([.empty], [.blockKey], ts)
  | .flowEntries true, ts => some (flowEntryStep ts)
  | .flowEntries false, .flowEntry :: ts => some (flowEntryStep ts)
  | .flowEntries false, .flowSequenceEnd :: ts => some ([.sequenceEnd], [], ts)
  | .flowEntries false, _ => none
  | .pairKey, ts =>
    -- The token in place of a key that is left out is not read again.
    if nextIn [.value, .flowEntry, .flowSequenceEnd] ts then
      some ([.empty], [.pairValue], ts.drop 1)
    else some ([], [.node false false, .pairValue], ts)
  | .pairValue, .value :: ts =>
    some (nodeUnless [.flowEntry, .flowSequenceEnd] false false .pairEnd ts)
  | .pairValue, ts => some ([.empty], [.pairEnd], ts)
  | .pairEnd, ts => some ([.mappingEnd], [], ts)
  | .flowKey true, ts => some (flowKeyStep ts)
  | .flowKey false, .flowEntry :: ts => some (flowKeyStep ts)
  | .flowKey false, .flowMappingEnd :: ts => some ([.mappingEnd], [], ts)
  | .flowKey false, _ => none
  | .flowValue, .value :: ts =>
    some (nodeUnless [.flowEntry, .flowMappingEnd] false false (.flowKey false) ts)
  | .flowValue, ts => some ([.empty], [.flowKey false], ts)
  | .flowEmptyValue, ts => some ([.empty], [.flowKey false], ts)

/-- Works on goals until none is left. -/
def reach? (handles : Handles) :
    Nat → List Goal → List Token → Option (List (Event String) × List Token)
  | _, [], ts => some ([], ts)
  | 0, _ :: _, _ => none
  | fuel + 1, goal :: goals, ts => do
    let (events, new, ts) ← step? handles goal ts
    let (more, ts) ← reach? handles fuel (new ++ goals) ts
    return (events ++ more, ts)

/-! ## Documents -/

/-- Whether a version of the format is known. -/
def isKnownVersion (major minor : Nat) : Bool := major == 1 && (minor == 1 || minor == 2)

/-- Takes directives, at most one of them a version and no two for one handle. -/
def directives? (versionSeen : Bool) (handles : Handles) :
    List Token → Option (Handles × List Token)
  | .directive (.version major minor) :: ts =>
    if versionSeen || !isKnownVersion major minor then none else directives? true handles ts
  | .directive (.tagHandle handle start) :: ts =>
    if (handles.lookup handle).isSome then none
    else directives? versionSeen ((handle, start) :: handles) ts
  | ts => some (handles, ts)

/-- Whether a token may stand before the content of a document, which is then empty. -/
def endsContent : List Token → Bool
  | [] => true
  | .directive _ :: _ | .documentStart :: _ | .documentEnd :: _ => true
  | _ => false

/-- More steps than any document needs: each takes a token or follows on one that was taken. -/
def enoughSteps (ts : List Token) : Nat := 4 * ts.length + 4

/-- The events of a document that begins with its content. -/
def content? (handles : Handles) (ts : List Token) : Option (List (Event String) × List Token) :=
  reach? (handles ++ defaultHandles) (enoughSteps ts) [.node true false] ts

/-- The events of the document in a list of tokens, none where there is no document. -/
def eventsOf? (ts : List Token) : Option (List (Event String)) := do
  let (events, ts) ←
    match ts with
    | [] => some ([], [])
    | .directive _ :: _ | .documentStart :: _ => do
      let (handles, ts) ← directives? false [] ts
      match ts with
      | .documentStart :: ts =>
        if endsContent ts then some ([.empty], ts) else content? handles ts
      | _ => none
    | ts => content? [] ts
  if ts.all (· == .documentEnd) then some events else none

/-- The events of the document in a text. -/
def events? (text : String) : Option (List (Event String)) := (tokens? text).bind eventsOf?

end OpenApi.Yaml
