import OpenApi.Json.Value
import OpenApi.Text

/-!
# Reading JSON text

A recursive-descent reader for JSON texts. A value nested 128 or more levels deep is refused. In an
object that names a key twice the first position and the last value count. The recursion is on the
number of characters left, which every step lowers.
-/

namespace OpenApi.Json

/-! ## Characters -/

/-- The white space of JSON. -/
def isSpace (c : Char) : Bool :=
  c == ' ' || c == '\n' || c == '\t' || c == '\r'

/-- The rest of a list after the given word, if it begins so. -/
def keyword? (word : List Char) : List Char → Option (List Char)
  | cs => if word.isPrefixOf cs then some (cs.drop word.length) else none

/-- The number of four hexadecimal digits at the front of a list. -/
def hexQuad? : List Char → Option (Nat × List Char)
  | a :: b :: c :: d :: rest => do
    let a ← Text.hexValue? a
    let b ← Text.hexValue? b
    let c ← Text.hexValue? c
    let d ← Text.hexValue? d
    return (((a * 16 + b) * 16 + c) * 16 + d, rest)
  | _ => none

/-- The character of a `\u` escape, whose digits stand at the front of the list. A high surrogate
needs the escape of a low one after it. -/
def unicodeEscape? (cs : List Char) : Option (Char × List Char) := do
  let (n, rest) ← hexQuad? cs
  if 0xDC00 ≤ n ∧ n ≤ 0xDFFF then none
  else if 0xD800 ≤ n ∧ n ≤ 0xDBFF then
    match rest with
    | '\\' :: 'u' :: rest =>
      let (low, rest) ← hexQuad? rest
      if 0xDC00 ≤ low ∧ low ≤ 0xDFFF then
        return (Char.ofNat (0x10000 + (n - 0xD800) * 0x400 + (low - 0xDC00)), rest)
      else none
    | _ => none
  else return (Char.ofNat n, rest)

/-- The character of an escape, whose letter stands at the front of the list. -/
def escape? : List Char → Option (Char × List Char)
  | '"' :: rest => some ('"', rest)
  | '\\' :: rest => some ('\\', rest)
  | '/' :: rest => some ('/', rest)
  | 'b' :: rest => some (Char.ofNat 0x08, rest)
  | 'f' :: rest => some (Char.ofNat 0x0C, rest)
  | 'n' :: rest => some ('\n', rest)
  | 'r' :: rest => some ('\r', rest)
  | 't' :: rest => some ('\t', rest)
  | 'u' :: rest => unicodeEscape? rest
  | _ => none

/-- The characters of a string up to its closing quote. -/
def stringBody? : Nat → List Char → Option (List Char × List Char)
  | 0, _ => none
  | fuel + 1, cs =>
    match cs with
    | [] => none
    | '"' :: rest => some ([], rest)
    | '\\' :: rest => do
      let (c, rest) ← escape? rest
      let (text, rest) ← stringBody? fuel rest
      return (c :: text, rest)
    | c :: rest =>
      if c.toNat < 0x20 then none
      else do
        let (text, rest) ← stringBody? fuel rest
        return (c :: text, rest)

/-! ## Values -/

/-- Nesting deeper than this is refused. -/
def maxDepth : Nat := 127

mutual

/-- Reads a value, which may be preceded by white space, at most `depth` levels deep. -/
def value? : Nat → Nat → List Char → Option (Value × List Char)
  | 0, _, _ => none
  | fuel + 1, depth, cs =>
    match cs.dropWhile isSpace with
    | [] => none
    | '"' :: rest => do
      let (text, rest) ← stringBody? fuel rest
      return (.string (String.ofList text), rest)
    | '[' :: rest =>
      if depth = 0 then none
      else
        match rest.dropWhile isSpace with
        | ']' :: rest => some (.array [], rest)
        | rest => do
          let (items, rest) ← items? fuel (depth - 1) rest
          return (.array items, rest)
    | '{' :: rest =>
      if depth = 0 then none
      else
        match rest.dropWhile isSpace with
        | '}' :: rest => some (.object [], rest)
        | rest => do
          let (members, rest) ← members? fuel (depth - 1) rest
          return (.object (OrderedMap.ofList members).entries, rest)
    | 't' :: rest => (keyword? ['r', 'u', 'e'] rest).map fun rest => (.bool true, rest)
    | 'f' :: rest => (keyword? ['a', 'l', 's', 'e'] rest).map fun rest => (.bool false, rest)
    | 'n' :: rest => (keyword? ['u', 'l', 'l'] rest).map fun rest => (.null, rest)
    | cs => (Number.read? cs).map fun (n, rest) => (.number n, rest)

/-- Reads items up to the closing bracket. -/
def items? : Nat → Nat → List Char → Option (List Value × List Char)
  | 0, _, _ => none
  | fuel + 1, depth, cs => do
    let (v, rest) ← value? fuel depth cs
    match rest.dropWhile isSpace with
    | ',' :: rest =>
      let (vs, rest) ← items? fuel depth rest
      return (v :: vs, rest)
    | ']' :: rest => return ([v], rest)
    | _ => none

/-- Reads members up to the closing brace. -/
def members? : Nat → Nat → List Char → Option (List (String × Value) × List Char)
  | 0, _, _ => none
  | fuel + 1, depth, cs =>
    match cs.dropWhile isSpace with
    | '"' :: rest => do
      let (key, rest) ← stringBody? fuel rest
      match rest.dropWhile isSpace with
      | ':' :: rest =>
        let (v, rest) ← value? fuel depth rest
        let entry := (String.ofList key, v)
        match rest.dropWhile isSpace with
        | ',' :: rest =>
          let (ms, rest) ← members? fuel depth rest
          return (entry :: ms, rest)
        | '}' :: rest => return ([entry], rest)
        | _ => none
      | _ => none
    | _ => none

end

/-- The value of a JSON text, if it is one. -/
def read? (text : String) : Option Value :=
  let cs := text.toList
  match value? (2 * cs.length + 2) maxDepth cs with
  | some (v, rest) => if rest.all isSpace then some v else none
  | none => none

end OpenApi.Json
