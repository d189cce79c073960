import OpenApi.Uri.Parser

/-!
# References

The texts that `$ref` and its relatives hold: an optional document and an optional fragment. This
module cuts them apart, decodes JSON Pointer segments, resolves a reference in the document it
stands in, compares document names, and reads component references
(`[document]#/components/{kind}/{key}`). Nothing is fetched, and a text that does not parse stands
for itself. So does a URL with an international domain, since URLs are read with ASCII domains only
(`Uri.Host`).
-/

namespace OpenApi.Reference

open Text

/-! ## Fragments -/

/-- The parts before and after the first `#`; no fragment without one. -/
def splitFragment (reference : String) : String × Option String :=
  match cut? '#' reference.toList with
  | some (document, fragment) => (String.ofList document, some (String.ofList fragment))
  | none => (reference, none)

/-- The document part of a reference, without white space around the reference. -/
def stripFragment (reference : String) : String := (splitFragment (trim reference)).1

/-- The name in the fragment of a dynamic reference, percent-decoded; an empty one counts as
none. -/
def anchorName? (reference : String) : Option String :=
  match (splitFragment (trim reference)).2 with
  | none => none
  | some fragment =>
    let name := Percent.decode fragment
    if name.isEmpty then none else some name

/-! ## Pointer segments -/

/-- Replaces every `~` before the mark by the given character. -/
def unescapeMark (mark replacement : Char) : List Char → List Char
  | [] => []
  | [c] => [c]
  | c :: d :: rest =>
    if c = '~' ∧ d = mark then replacement :: unescapeMark mark replacement rest
    else c :: unescapeMark mark replacement (d :: rest)

/-- The key that a JSON Pointer segment stands for: `~1` is a slash and `~0` a tilde, and then
percent-encoding is undone. -/
def decodeSegment (segment : String) : String :=
  Percent.decode (String.ofList (unescapeMark '0' '~' (unescapeMark '1' '/' segment.toList)))

/-- The JSON Pointer segment of a key. -/
def escapeSegment (key : String) : String :=
  String.ofList (key.toList.flatMap fun c =>
    if c = '~' then ['~', '0'] else if c = '/' then ['~', '1'] else [c])

/-! ## Resolution -/

/-- The origin under which references of documents with a relative name are resolved. -/
def placeholder : String := "http://example.invalid/"

/-- The text without any number of copies of another at its front. -/
def dropRepeated (start : List Char) : Nat → List Char → List Char
  | 0, cs => cs
  | fuel + 1, cs =>
    match dropPrefix? start cs with
    | some rest => dropRepeated start fuel rest
    | none => cs

/-- The reference resolved in a document whose name is a relative path: as under an origin, which
is taken off again. -/
def resolveUnderPlaceholder (reference context : String) : String :=
  let resolved := do
    let origin ← Uri.parse? placeholder
    let document ← Uri.join? origin context
    Uri.join? document reference
  match resolved with
  | none => reference
  | some url =>
    let cs := url.text.toList
    let relative := dropRepeated placeholder.toList cs.length cs
    String.ofList (if startsWith "/" context then '/' :: relative else relative)

/-- The reference resolved in a document. An absolute reference stands for itself in its normal
form, and so, as it is written, does any reference that cannot be resolved. -/
def resolveAgainst (reference : String) (document : Option String) : String :=
  let reference := trim reference
  match Uri.parse? reference with
  | some url => url.text
  | none =>
    let context := trim (document.getD "")
    if context.isEmpty then reference
    else
      match Uri.parse? context with
      | some base => ((Uri.join? base reference).map Uri.text).getD reference
      | none => resolveUnderPlaceholder reference context

/-! ## Comparing documents -/

/-- The components of a file path: no empty ones, and no `.` but at the front of a relative
path. -/
def pathComponents (path : String) : List String :=
  match pieces '/' path with
  | [] => []
  | first :: rest =>
    let kept := rest.filter fun name => !name.isEmpty && name != "."
    if first.isEmpty then "/" :: kept else first :: kept

/-- Whether two documents agree in scheme, host, port and path. -/
def sameUrl (a b : Uri) : Bool :=
  a.scheme == b.scheme && a.host? == b.host? && a.port? == b.port? && a.path.text == b.path.text

/-- Whether a reference's document is the one named `self`. Absolute names match on scheme, host,
port and path; an absolute path as `self` matches the path of an absolute document; two file paths
match by components. -/
def sameDocument (document self : String) : Bool :=
  let document := stripFragment document
  let self := stripFragment self
  if document.isEmpty || self.isEmpty then false
  else if document == self then true
  else
    match Uri.parse? document, Uri.parse? self with
    | some a, some b => sameUrl a b
    | a, _ =>
      match startsWith "/" self, a with
      | true, some url => url.path.text == self
      | _, _ =>
        let hasOrigin (s : String) : Bool := contains [':', '/', '/'] s.toList
        !hasOrigin self && !hasOrigin document && pathComponents document == pathComponents self

/-! ## Component references -/

/-- A component reference: the document it names, if any, and the decoded key. -/
structure Component where
  document : Option String
  key : String
deriving DecidableEq, Inhabited

/-- Reads `[document]#/components/{kind}/{key}` for the given kind, with no `#` in the document, no
`/` in kind and key, and neither of them empty. -/
def component? (reference kind : String) : Option Component :=
  match cut? '#' (trim reference).toList with
  | none => none
  | some (document, fragment) =>
    match splitOn '/' fragment with
    | [[], components, found, key] =>
      if String.ofList components = "components" ∧ String.ofList found = kind ∧ !found.isEmpty ∧
          !key.isEmpty then
        let key := decodeSegment (String.ofList key)
        if key.isEmpty then none
        else
          some { document := if document.isEmpty then none else some (String.ofList document), key }
      else none
    | _ => none

/-! ## Names -/

/-- The name of a file without its extension. A dot at the front does not start an extension. -/
def fileStem (name : String) : String :=
  match cut? '.' name.toList.reverse with
  | some (_, stem) => if stem.isEmpty || name == ".." then name else String.ofList stem.reverse
  | none => name

/-- The last of the pieces between slashes. -/
def lastPiece (cs : List Char) : List Char := (splitOn '/' cs).getLast?.getD []

/-- The path of a document name: that of its URL, or what stands before a query. -/
def documentPath (document : String) : String :=
  match Uri.parse? document with
  | some url => url.path.text
  | none => String.ofList (document.toList.takeWhile (· != '?'))

/-- The symbolic name of a reference: the last segment of a pointer, the text of any other
fragment without document, else the name of the file without extension, else the last piece of the
text. -/
def name (reference : String) : String :=
  let reference := trim reference
  match reference.toList with
  | '#' :: '/' :: pointer => decodeSegment (String.ofList (lastPiece pointer))
  | '#' :: fragment => String.ofList fragment
  | cs =>
    let path := documentPath (splitFragment reference).1
    match ((pieces '/' path).reverse.find? fun piece => !piece.isEmpty) with
    | some piece => Percent.decode (fileStem piece)
    | none => String.ofList (lastPiece (dropEndWhile (fun c => c == '/' || c == '#') cs))

end OpenApi.Reference
