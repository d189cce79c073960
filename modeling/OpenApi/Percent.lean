import OpenApi.Text

/-!
# Percent-encoding

A text is encoded by writing each character outside a class as the `%XX` triples of its UTF-8
bytes, and decoded into bytes: a `%` before two hexadecimal digits stands for a byte, everything
else for itself.
-/

namespace OpenApi.Percent

open Text

/-! ## Encoding -/

/-- A byte as a `%XX` triple. -/
def encodeByte (b : UInt8) : List Char :=
  ['%', upperHexDigit (b.toNat / 16), upperHexDigit (b.toNat % 16)]

/-- A character as the triples of its UTF-8 bytes. -/
def encodeChar (c : Char) : List Char :=
  (String.utf8EncodeChar c).flatMap encodeByte

/-- The characters of the class `keep` as they are, all others as triples. -/
def encodeChars (keep : Char → Bool) (cs : List Char) : List Char :=
  cs.flatMap fun c => if keep c then [c] else encodeChar c

/-- The text with every character outside `keep` written as triples. -/
def encode (keep : Char → Bool) (s : String) : String :=
  String.ofList (encodeChars keep s.toList)

/-! ## Decoding -/

/-- The bytes that a text stands for; a `%` without two digits after it stands for itself. -/
def decodeBytes : List Char → List UInt8
  | [] => []
  | [c] => String.utf8EncodeChar c
  | [c, d] => String.utf8EncodeChar c ++ String.utf8EncodeChar d
  | c :: d :: e :: rest =>
    if c = '%' then
      match hexValue? d, hexValue? e with
      | some hi, some lo => UInt8.ofNat (16 * hi + lo) :: decodeBytes rest
      | _, _ => String.utf8EncodeChar c ++ decodeBytes (d :: e :: rest)
    else String.utf8EncodeChar c ++ decodeBytes (d :: e :: rest)

/-- The text that a list of bytes encodes in UTF-8. -/
def textOfBytes? (bytes : List UInt8) : Option String :=
  String.fromUTF8? ⟨bytes.toArray⟩

/-- The text that a percent-encoded text stands for, if its bytes are valid UTF-8. -/
def decode? (s : String) : Option String :=
  textOfBytes? (decodeBytes s.toList)

/-- The text that a percent-encoded text stands for; the text itself where that is none. -/
def decode (s : String) : String :=
  (decode? s).getD s

end OpenApi.Percent
