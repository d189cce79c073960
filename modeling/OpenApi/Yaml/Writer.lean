import OpenApi.Yaml.Quoting

/-!
# Writing YAML

JSON values as YAML texts in block style: two columns for each mapping inside another, a sequence
inside a mapping at the mapping's own column, and empty collections in flow style. At one path of
member names a value is a variant, an object of one member, and is written as a tag and what the
member holds.
-/

namespace OpenApi.Yaml

open Json

/-- Spaces up to a column. -/
def indentation (column : Nat) : List Char := List.replicate column ' '

/-- Whether a key stands on the line of its value: it has one line and at most 128 bytes. -/
def isSimpleKey (key : String) : Bool := !key.toList.any endsLine && key.utf8ByteSize ≤ 128

/-- A number. -/
def numberText : Number → String
  | .integer n => Number.integerText n
  | .double x => Decimal.text doubleStyle x

/-- Where a node is written: after the colon of a member, or after another indicator, where a
collection begins on the same line. -/
inductive Place where
  | afterColon
  | compact
deriving DecidableEq, Inhabited

/-- A key of a mapping at a column, up to the indicator of its value, and the place of the value. -/
def keyText (column : Nat) (key : String) : List Char × Place :=
  if isSimpleKey key then
    ((stringLine (column + 2) key).dropLast ++ [':'], .afterColon)
  else (['?', ' '] ++ stringLine (column + 2) key ++ indentation column ++ [':'], .compact)

/-- The path below a member, if it goes on there. -/
def pathBelow (key : String) : List String → List String
  | k :: rest => if k = key then rest else []
  | [] => []

mutual

/-- A node after its indicator, in a collection at a column, with the end of its last line. -/
def nodeText (variants : List String) (column : Nat) (place : Place) : Value → List Char
  | .null => " null\n".toList
  | .bool b => (if b then " true\n" else " false\n").toList
  | .number n => ' ' :: (numberText n).toList ++ ['\n']
  | .string s => ' ' :: stringLine (column + 2) s
  | .array [] => " []\n".toList
  | .array (v :: vs) =>
    match place with
    | .afterColon => '\n' :: itemsText variants column true (v :: vs)
    | .compact => ' ' :: itemsText variants (column + 2) false (v :: vs)
  | .object [] => " \x7b\x7d\n".toList
  | .object (m :: ms) =>
    match place with
    | .afterColon => '\n' :: membersText variants (column + 2) true (m :: ms)
    | .compact => ' ' :: membersText variants (column + 2) false (m :: ms)

/-- The items of a sequence at a column, the first one indented or not. -/
def itemsText (variants : List String) (column : Nat) (indented : Bool) : List Value → List Char
  | [] => []
  | v :: vs =>
    (if indented then indentation column else []) ++ '-' :: nodeText variants column .compact v ++
      itemsText variants column true vs

/-- The members of a mapping at a column, the first one indented or not. -/
def membersText (variants : List String) (column : Nat) (indented : Bool) :
    List (String × Value) → List Char
  | [] => []
  | (key, v) :: ms =>
    let (keyChars, place) := keyText column key
    let value :=
      match variants == [key], v with
      | true, .object [(tag, w)] => " !".toList ++ tag.toList ++ nodeText [] column .afterColon w
      | _, v => nodeText (pathBelow key variants) column place v
    (if indented then indentation column else []) ++ keyChars ++ value ++
      membersText variants column true ms

end

/-- The text of a value, with tags for the variants at a path of member names. -/
def text (variants : List String) (v : Value) : String :=
  String.ofList
    (match v with
    | .array (v :: vs) => itemsText variants 0 true (v :: vs)
    | .object (m :: ms) => membersText variants 0 true (m :: ms)
    | v => (nodeText variants 0 .compact v).drop 1)

end OpenApi.Yaml
