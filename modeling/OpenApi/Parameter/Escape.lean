import OpenApi.Percent

/-!
# Escaping of parameter values

The unreserved characters of URIs are never escaped. The reserved ones are kept on request, and
then `%XX` triples that a value already holds are kept as well.
-/

namespace OpenApi.Parameter

open Text

/-- Letters, digits, `-`, `.`, `_` and `~`. -/
def isUnreserved (c : Char) : Bool :=
  c.isAlphanum || c == '-' || c == '.' || c == '_' || c == '~'

/-- The reserved characters of URIs. -/
def reserved : List Char :=
  [':', '/', '?', '#', '[', ']', '@', '!', '$', '&', Char.ofNat 0x27, '(', ')', '*', '+', ',', ';',
    '=']

/-- Whether a character is reserved or unreserved. -/
def isUriCharacter (c : Char) : Bool := isUnreserved c || reserved.contains c

/-- Escapes every character but the unreserved ones. -/
def escapeUnreserved (s : String) : String := Percent.encode isUnreserved s

/-- Escapes every character but the reserved and unreserved ones and those of `%XX` triples. -/
def escapeReservedChars : List Char → List Char
  | [] => []
  | [c] => Percent.encodeChars isUriCharacter [c]
  | [c, d] => Percent.encodeChars isUriCharacter [c, d]
  | c :: d :: e :: rest =>
    if c = '%' ∧ isHex d ∧ isHex e then c :: d :: e :: escapeReservedChars rest
    else Percent.encodeChars isUriCharacter [c] ++ escapeReservedChars (d :: e :: rest)

/-- The text with reserved characters and triples kept. -/
def escapeReserved (s : String) : String := String.ofList (escapeReservedChars s.toList)

/-- What is escaped in a parameter's name and value. -/
inductive Escaping where
  | nothing
  | allButUnreserved
  | allButReserved
deriving DecidableEq, Inhabited

/-- Escapes a text. -/
def Escaping.apply : Escaping → String → String
  | .nothing => id
  | .allButUnreserved => escapeUnreserved
  | .allButReserved => escapeReserved

end OpenApi.Parameter
