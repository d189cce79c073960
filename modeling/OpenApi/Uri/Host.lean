import OpenApi.Percent

/-!
# Hosts

Hosts of special URLs are domains, IPv4 addresses or bracketed IPv6 addresses, read from their
percent-decoded text; a domain whose last label is a number must be an IPv4 address. Hosts of other
URLs are kept as they are written. Domains are ASCII here: a domain with other characters is no host
and is not put into its ASCII form, and no label is checked for being such a form.
-/

namespace OpenApi.Uri.Host

open Text

/-! ## IPv4 addresses -/

/-- The number of a list of digits in a base up to sixteen. -/
def number? (base : Nat) (cs : List Char) : Option Nat :=
  cs.foldlM
    (fun acc c => (hexValue? c).bind fun d => if d < base then some (acc * base + d) else none) 0

/-- A part of an IPv4 address: decimal, octal after `0`, hexadecimal after `0x`. -/
def addressPart? (cs : List Char) : Option Nat :=
  match cs with
  | [] => none
  | '0' :: 'x' :: digits => number? 16 digits
  | '0' :: 'X' :: digits => number? 16 digits
  | '0' :: d :: digits => number? 8 (d :: digits)
  | digits => number? 10 digits

/-- The labels of a domain, without the empty one after a final dot. -/
def labels (cs : List Char) : List (List Char) :=
  match (splitOn '.' cs).reverse with
  | [] :: last :: rest => (last :: rest).reverse
  | ls => ls.reverse

/-- Whether the last label of a domain is a number, so that the domain must be an address. -/
def endsInNumber (cs : List Char) : Bool :=
  match (labels cs).getLast? with
  | some label => (!label.isEmpty && label.all Char.isDigit) || (addressPart? label).isSome
  | none => false

/-- The four bytes of an IPv4 address as text. -/
def addressText (n : Nat) : String :=
  ".".intercalate ([n / Nat.pow 2 24, n / Nat.pow 2 16 % 256, n / Nat.pow 2 8 % 256, n % 256].map
    fun b => String.ofList (Nat.toDigits 10 b))

/-- The number of an IPv4 address: all parts but the last are bytes, the last fills the rest. -/
def address? (cs : List Char) : Option Nat := do
  let parts ← (labels cs).mapM addressPart?
  if parts.length > 4 then none
  else
    let last ← parts.getLast?
    let bytes := parts.dropLast
    if bytes.any (· > 255) || last ≥ Nat.pow 256 (4 - bytes.length) then none
    else
      let high := bytes.zipIdx.foldl (fun acc (b, i) => acc + b * Nat.pow 256 (3 - i)) 0
      return high + last

/-! ## IPv6 addresses -/

/-- A piece of an IPv6 address: one to four hexadecimal digits. -/
def piece? (cs : List Char) : Option Nat :=
  if cs.isEmpty || cs.length > 4 then none else number? 16 cs

/-- A decimal byte without leading zeros. -/
def byte? (cs : List Char) : Option Nat :=
  match cs with
  | [] => none
  | '0' :: _ :: _ => none
  | digits => (number? 10 digits).bind fun n => if n ≤ 255 then some n else none

/-- The pieces at the end of an IPv6 address, the last two of which may be written as an IPv4
address. -/
def pieces? (cs : List Char) : Option (List Nat) :=
  if cs.isEmpty then some []
  else
    let parts := splitOn ':' cs
    match parts.getLast? with
    | some last =>
      if last.contains '.' then do
        let front ← parts.dropLast.mapM piece?
        let bytes ← (splitOn '.' last).mapM byte?
        match bytes with
        | [a, b, c, d] => return front ++ [a * 256 + b, c * 256 + d]
        | _ => none
      else parts.mapM piece?
    | none => none

/-- The parts before and after the first `::`. -/
def cutDoubleColon? : List Char → Option (List Char × List Char)
  | ':' :: ':' :: rest => some ([], rest)
  | c :: rest => (cutDoubleColon? rest).map fun (front, back) => (c :: front, back)
  | [] => none

/-- The eight pieces of an IPv6 address. A `::` stands for one or more zero pieces. -/
def addressPieces? (cs : List Char) : Option (List Nat) :=
  match cutDoubleColon? cs with
  | none => (pieces? cs).bind fun ps => if ps.length = 8 then some ps else none
  | some (front, back) => do
    let front ← if front.isEmpty then some [] else (splitOn ':' front).mapM piece?
    let back ← pieces? back
    let count := front.length + back.length
    if count > 7 then none else return front ++ List.replicate (8 - count) 0 ++ back

/-- The number of zeros at the front of a list. -/
def leadingZeros (ps : List Nat) : Nat := (ps.takeWhile (· == 0)).length

/-- Where the first longest run of zeros begins and how long it is. -/
def longestZeros (ps : List Nat) : Nat × Nat :=
  (List.range ps.length).foldl
    (fun best i => let n := leadingZeros (ps.drop i); if n > best.2 then (i, n) else best) (0, 0)

/-- A piece in lower-case hexadecimal digits. -/
def pieceText (n : Nat) : String := String.ofList (Nat.toDigits 16 n)

/-- The text of an IPv6 address; the first longest run of two or more zero pieces is left out. -/
def piecesText (ps : List Nat) : String :=
  let (start, count) := longestZeros ps
  if count < 2 then ":".intercalate (ps.map pieceText)
  else
    ":".intercalate ((ps.take start).map pieceText) ++ "::" ++
      ":".intercalate ((ps.drop (start + count)).map pieceText)

/-! ## Hosts -/

/-- The text of a bracketed IPv6 address, given what follows the opening bracket. -/
def bracketed? (cs : List Char) : Option String :=
  match cs.reverse with
  | ']' :: inner =>
    (addressPieces? inner.reverse).map fun ps => "[" ++ piecesText ps ++ "]"
  | _ => none

/-- Characters that no domain may hold. -/
def isForbidden (c : Char) : Bool :=
  c.toNat ≤ 0x20 || c.toNat ≥ 0x7F ||
    ['#', '/', ':', '<', '>', '?', '@', '[', '\\', ']', '^', '|', '%'].contains c

/-- The host of a special URL. A domain that is not ASCII is none. -/
def special? (cs : List Char) : Option String :=
  match cs with
  | '[' :: rest => bracketed? rest
  | cs => do
    let decoded ← Percent.textOfBytes? (Percent.decodeBytes cs)
    let domain := decoded.toList.map Char.toLower
    if domain.isEmpty || domain.any isForbidden then none
    else if endsInNumber domain then (address? domain).map addressText
    else return String.ofList domain

/-- Characters that the host of no URL may hold. -/
def isForbiddenAnywhere (c : Char) : Bool :=
  [Char.ofNat 0, '\t', '\n', '\r', ' ', '#', '/', ':', '<', '>', '?', '@', '[', '\\', ']', '^',
    '|'].contains c

/-- The host of a URL that is not special: bracketed, or the text with control characters and
non-ASCII characters encoded. -/
def general? (cs : List Char) : Option String :=
  match cs with
  | '[' :: rest => bracketed? rest
  | cs =>
    if cs.any isForbiddenAnywhere then none
    else some (String.ofList (Percent.encodeChars (fun c => 0x20 ≤ c.toNat && c.toNat < 0x7F) cs))

end OpenApi.Uri.Host
