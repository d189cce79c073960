import OpenApi.Percent
import OpenApi.Yaml.Cursor

/-!
# Properties and directives in YAML texts

Tags with their handles, names of anchors and aliases, and the directives in front of a document.
Bytes in tags may be percent-encoded.
-/

namespace OpenApi.Yaml

open Text

/-! ## Names -/

/-- The characters that may follow the name of an anchor or alias, besides white space. -/
def nameEnds : List Char := ['?', ':', ',', ']', '}', '%', '@', Char.ofNat 0x60]

/-- The name of an anchor or alias after its indicator. -/
def anchorName? (c : Cursor) : Option (String × Cursor) :=
  let (name, c) := c.span isWord
  if name.isEmpty || !(endsWord c.peek? || c.peek?.any nameEnds.contains) then none
  else some (String.ofList name, c)

/-! ## Tags -/

/-- The characters of tags. -/
def isTagCharacter (verbatim : Bool) (c : Char) : Bool :=
  isWord c || [';', '/', '?', ':', '@', '&', '=', '+', '$', '.', '%', '!', '~', '*',
    Char.ofNat 0x27, '(', ')'].contains c || (verbatim && [',', '[', ']'].contains c)

/-- Whether every percent sign stands before two hexadecimal digits. -/
def isEncoded : List Char → Bool
  | [] => true
  | '%' :: d :: e :: rest => isHex d && isHex e && isEncoded rest
  | '%' :: _ => false
  | _ :: rest => isEncoded rest

/-- The characters of a tag that come next, decoded. -/
def tagText? (verbatim : Bool) (c : Cursor) : Option (String × Cursor) :=
  let (chars, c) := c.span (isTagCharacter verbatim)
  if isEncoded chars then
    (Percent.textOfBytes? (Percent.decodeBytes chars)).map fun text => (text, c)
  else none

/-- The handle of a tag: an exclamation mark, and word characters up to another one if there is
one. -/
def tagHandle? (c : Cursor) : Option (List Char × Cursor) :=
  if c.at? '!' then
    let (name, c) := (c.skip 1).span isWord
    if c.at? '!' then some ('!' :: name ++ ['!'], c.skip 1) else some ('!' :: name, c)
  else none

/-- A tag in angle brackets, which has no handle. -/
def verbatimTag? (c : Cursor) : Option (String × String × Cursor) := do
  let (text, c) ← tagText? true (c.skip 2)
  if text.isEmpty || !c.at? '>' then none else return ("", text, c.skip 1)

/-- A tag with a handle. The tag of only an exclamation mark has none. -/
def shortTag? (c : Cursor) : Option (String × String × Cursor) := do
  let (handle, c) ← tagHandle? c
  let (text, c) ← tagText? false c
  if handle.length > 1 && handle.getLast? == some '!' then
    if text.isEmpty then none else return (String.ofList handle, text, c)
  else
    let text := String.ofList (handle.drop 1) ++ text
    if text.isEmpty then return ("", "!", c) else return ("!", text, c)

/-- A tag from its indicator on: the handle, and what follows it. -/
def tag? (flow : Bool) (c : Cursor) : Option (String × String × Cursor) :=
  let found := if c.peekAt? 1 == some '<' then verbatimTag? c else shortTag? c
  found.filter fun (_, _, c) => endsWord c.peek? || (flow && c.at? ',')

/-! ## Directives -/

/-- A directive in front of a document. -/
inductive Directive where
  | version (major minor : Nat)
  | tagHandle (handle start : String)
deriving DecidableEq, Inhabited

/-- A number of at most nine digits. -/
def versionNumber? (c : Cursor) : Option (Nat × Cursor) :=
  let (digits, c) := c.span Char.isDigit
  if digits.isEmpty || digits.length > 9 then none
  else some (digits.foldl (fun n d => n * 10 + (d.toNat - 0x30)) 0, c)

/-- The two numbers of a version. -/
def versionOf? (c : Cursor) : Option (Directive × Cursor) := do
  let (major, c) ← versionNumber? (c.skipWhile isBlank)
  if !c.at? '.' then none
  else
    let (minor, c) ← versionNumber? (c.skip 1)
    return (.version major minor, c)

/-- The handle of a tag directive and what it stands for. -/
def tagHandleOf? (c : Cursor) : Option (Directive × Cursor) := do
  let (handle, c) ← tagHandle? (c.skipWhile isBlank)
  if handle.length > 1 && handle.getLast? != some '!' || !c.peek?.any isBlank then none
  else
    let (start, c) ← tagText? true (c.skipWhile isBlank)
    if start.isEmpty || !endsWord c.peek? then none
    else return (.tagHandle (String.ofList handle) start, c)

/-- A directive after its indicator, up to the next line. -/
def directive? (c : Cursor) : Option (Directive × Cursor) := do
  let (name, c) := c.span isWord
  if !endsWord c.peek? then none
  else
    let (directive, c) ←
      match String.ofList name with
      | "YAML" => versionOf? c
      | "TAG" => tagHandleOf? c
      | _ => none
    let c ← c.skipToNextLine?
    return (directive, c)

end OpenApi.Yaml
