import OpenApi.Yaml.Scalar
import OpenApi.Yaml.Token

/-!
# Cutting YAML texts into tokens

Tokens are read from left to right. Indentation opens and closes block collections. A key needs no
mark of its own: where one may begin is remembered, and the colon after it puts the mark in front.
Such a key ends on the line on which it begins, within 1024 characters.
-/

namespace OpenApi.Yaml

/-! ## State -/

/-- A place where a key without mark may have begun, and the number of tokens before it. A required
one is the first thing on a line of a block mapping. -/
structure KeyPlace where
  required : Bool
  tokenCount : Nat
  cursor : Cursor
deriving Inhabited

/-- What is known between two tokens: the tokens so far, the columns of the open block collections
from the innermost on, whether a key may begin here, and where one may have begun in each open flow
collection and around them, from the innermost on. -/
structure Lexer where
  cursor : Cursor
  tokens : Array Token := #[]
  columns : List Nat := []
  keyAllowed : Bool := true
  keyPlace : Option KeyPlace := none
  outerKeyPlaces : List (Option KeyPlace) := []
deriving Inhabited

namespace Lexer

/-- Whether a flow collection is open. -/
def inFlow (l : Lexer) : Bool := !l.outerKeyPlaces.isEmpty

/-- The column of the innermost block collection. -/
def column? (l : Lexer) : Option Nat := l.columns.head?

/-- The least column of what belongs to the innermost block collection. -/
def innerColumn (l : Lexer) : Nat :=
  match l.column? with
  | some column => column + 1
  | none => 0

/-- Appends a token. -/
def push (l : Lexer) (t : Token) : Lexer := { l with tokens := l.tokens.push t }

/-- Inserts a token after a number of others. -/
def insertAt (l : Lexer) (count : Nat) (t : Token) : Lexer :=
  { l with tokens := l.tokens.extract 0 count ++ #[t] ++ l.tokens.extract count l.tokens.size }

/-- Moves to a position. -/
def moveTo (l : Lexer) (c : Cursor) : Lexer := { l with cursor := c }

/-- Says whether a key may begin after this. -/
def allowKey (l : Lexer) (allowed : Bool) : Lexer := { l with keyAllowed := allowed }

/-- Appends a token of some characters. -/
def take (l : Lexer) (count : Nat) (t : Token) : Lexer := (l.push t).moveTo (l.cursor.skip count)

/-! ## Keys without mark -/

/-- Forgets where a key may have begun, unless it is required there. -/
def dropKeyPlace? (l : Lexer) : Option Lexer :=
  if l.keyPlace.any (·.required) then none else some { l with keyPlace := none }

/-- Remembers that a key may begin here. -/
def saveKeyPlace? (l : Lexer) : Option Lexer :=
  if l.keyAllowed then
    l.dropKeyPlace?.map fun l =>
      { l with keyPlace := some {
          required := !l.inFlow && l.column? == some l.cursor.column
          tokenCount := l.tokens.size
          cursor := l.cursor } }
  else some l

/-- Whether a key that began at a place cannot end here any more. -/
def isStale (here : Cursor) (p : KeyPlace) : Bool :=
  p.cursor.line < here.line || p.cursor.index + 1024 < here.index

/-- Forgets the places whose keys cannot end here any more, unless one is required. -/
def dropStale? (l : Lexer) : Option Lexer :=
  let stale (p : Option KeyPlace) : Bool := p.any (isStale l.cursor)
  let fresh (p : Option KeyPlace) : Option KeyPlace := if stale p then none else p
  if (l.keyPlace :: l.outerKeyPlaces).any fun p => stale p && p.any (·.required) then none
  else
    some { l with
      keyPlace := fresh l.keyPlace
      outerKeyPlaces := l.outerKeyPlaces.map fresh }

/-! ## Indentation -/

/-- Opens a block collection at a column unless one is open there or further right; the token goes
after a number of others. -/
def openBlock (l : Lexer) (column count : Nat) (t : Token) : Lexer :=
  if !l.inFlow && l.column?.all (· < column) then
    { l.insertAt count t with columns := column :: l.columns }
  else l

/-- Closes block collections from the innermost on while a test holds of their columns. -/
def closeWhile (test : Nat → Bool) (l : Lexer) : Lexer :=
  if l.inFlow then l
  else
    let closed := l.columns.takeWhile test
    { l with
      tokens := l.tokens ++ (closed.map fun _ => Token.blockEnd).toArray
      columns := l.columns.drop closed.length }

/-! ## Tokens -/

/-- Skips blanks, comments and line ends. Tabs do not count as blanks where a key may begin in a
block. -/
def skipToToken : Nat → Lexer → Lexer
  | 0, l => l
  | fuel + 1, l =>
    let tabs := l.inFlow || !l.keyAllowed
    let c := l.cursor.skipWhile fun ch => ch == ' ' || (tabs && ch == '\t')
    let c := if c.at? '#' then c.skipWhile fun ch => !isBreak ch else c
    if c.atBreak then
      skipToToken fuel { l with cursor := c.skipLine, keyAllowed := !l.inFlow || l.keyAllowed }
    else l.moveTo c

/-- Leaves every block collection. -/
def leaveBlocks? (l : Lexer) : Option Lexer :=
  ((l.closeWhile fun _ => true).dropKeyPlace?).map (·.allowKey false)

/-- Opens a flow collection. -/
def openFlow? (l : Lexer) (t : Token) : Option Lexer :=
  l.saveKeyPlace?.map fun l =>
    ({ l with keyPlace := none, outerKeyPlaces := l.keyPlace :: l.outerKeyPlaces }.allowKey
      true).take 1 t

/-- Closes a flow collection. -/
def closeFlow? (l : Lexer) (t : Token) : Option Lexer :=
  l.dropKeyPlace?.map fun l =>
    let l :=
      match l.outerKeyPlaces with
      | place :: places => { l with keyPlace := place, outerKeyPlaces := places }
      | [] => l
    (l.allowKey false).take 1 t

/-- Reads the mark of an entry in a block sequence. -/
def blockEntry? (l : Lexer) : Option Lexer :=
  if !l.inFlow && !l.keyAllowed then none
  else
    let l := l.openBlock l.cursor.column l.tokens.size .blockSequenceStart
    l.dropKeyPlace?.map fun l => (l.allowKey true).take 1 .blockEntry

/-- Reads the mark of a key. -/
def key? (l : Lexer) : Option Lexer :=
  if !l.inFlow && !l.keyAllowed then none
  else
    let l := l.openBlock l.cursor.column l.tokens.size .blockMappingStart
    l.dropKeyPlace?.map fun l => (l.allowKey !l.inFlow).take 1 .key

/-- Reads the mark of a value, which may make what stands before it a key. -/
def value? (l : Lexer) : Option Lexer :=
  match l.keyPlace with
  | some place =>
    let l := l.insertAt place.tokenCount .key
    let l := l.openBlock place.cursor.column place.tokenCount .blockMappingStart
    some (({ l with keyPlace := none }.allowKey false).take 1 .value)
  | none =>
    if !l.inFlow && !l.keyAllowed then none
    else
      let l := l.openBlock l.cursor.column l.tokens.size .blockMappingStart
      some ((l.allowKey !l.inFlow).take 1 .value)

/-- Reads a token with a text where a key may begin. -/
def property? (l : Lexer) (read : Lexer → Option (Token × Cursor)) : Option Lexer :=
  l.saveKeyPlace?.bind fun l =>
    (read l).map fun (t, c) => ((l.allowKey false).push t).moveTo c

/-- Reads a quoted scalar. -/
def quotedScalar? (l : Lexer) (quote : Char) : Option Lexer :=
  l.property? fun l =>
    (quoted? quote (l.cursor.rest.length + 1) (l.cursor.skip 1)).map fun (text, c) =>
      (.scalar false (String.ofList text), c)

/-- Reads a block scalar. -/
def blockScalar? (l : Lexer) (literal : Bool) : Option Lexer :=
  l.dropKeyPlace?.bind fun l =>
    (block? literal l.column? (l.cursor.skip 1)).map fun (text, c) =>
      ((l.allowKey true).push (.scalar false (String.ofList text))).moveTo c

/-- Reads a plain scalar. After a line end a key may begin. -/
def plainScalar? (l : Lexer) : Option Lexer :=
  l.saveKeyPlace?.bind fun l =>
    (plain? l.inFlow l.innerColumn (l.cursor.rest.length + 1) l.cursor).map
      fun (text, broken, c) =>
        ((l.allowKey broken).push (.scalar true (String.ofList text))).moveTo c

/-- Indicators with which no plain scalar begins. -/
def indicators : List Char :=
  ['-', '?', ':', ',', '[', ']', '{', '}', '#', '&', '*', '!', '|', '>', Char.ofNat 0x27, '"', '%',
    '@', Char.ofNat 0x60]

/-- Whether a plain scalar begins with a character that another one follows. -/
def startsPlain (flow : Bool) (ch : Char) (after : Option Char) : Bool :=
  !(endsWord (some ch) || indicators.contains ch) ||
    (ch == '-' && !after.any isBlank) || (!flow && (ch == '?' || ch == ':') && !endsWord after)

/-- Reads the token that begins with a character. -/
def readAt? (l : Lexer) (ch : Char) : Option Lexer :=
  let c := l.cursor
  let after := c.peekAt? 1
  let word := endsWord after
  if c.column == 0 && ch == '%' then
    l.leaveBlocks?.bind fun l =>
      (directive? (c.skip 1)).map fun (directive, c) => (l.push (.directive directive)).moveTo c
  else if c.atMark '-' then l.leaveBlocks?.map (·.take 3 .documentStart)
  else if c.atMark '.' then l.leaveBlocks?.map (·.take 3 .documentEnd)
  else if ch == '[' then l.openFlow? .flowSequenceStart
  else if ch == '{' then l.openFlow? .flowMappingStart
  else if ch == ']' then l.closeFlow? .flowSequenceEnd
  else if ch == '}' then l.closeFlow? .flowMappingEnd
  else if ch == ',' then l.dropKeyPlace?.map fun l => (l.allowKey true).take 1 .flowEntry
  else if ch == '-' && word then l.blockEntry?
  else if ch == '?' && (l.inFlow || word) then l.key?
  else if ch == ':' && (l.inFlow || word) then l.value?
  else if ch == '*' then
    l.property? fun _ => (anchorName? (c.skip 1)).map fun (name, c) => (.alias name, c)
  else if ch == '&' then
    l.property? fun _ => (anchorName? (c.skip 1)).map fun (name, c) => (.anchor name, c)
  else if ch == '!' then
    l.property? fun l => (tag? l.inFlow c).map fun (handle, rest, c) => (.tag handle rest, c)
  else if ch == '|' && !l.inFlow then l.blockScalar? true
  else if ch == '>' && !l.inFlow then l.blockScalar? false
  else if ch == '"' || ch.toNat == 0x27 then l.quotedScalar? ch
  else if startsPlain l.inFlow ch after then l.plainScalar?
  else none

/-- Reads all tokens that are left. -/
def readAll? : Nat → Lexer → Option Lexer
  | 0, _ => none
  | fuel + 1, l => do
    let l ← (l.skipToToken (l.cursor.rest.length + 1)).dropStale?
    match l.cursor.peek? with
    | none => l.leaveBlocks?
    | some ch =>
      let l := l.closeWhile (l.cursor.column < ·)
      let l ← l.readAt? ch
      readAll? fuel l

end Lexer

/-- The tokens of a text. A byte order mark at its start counts as a character of the first line. -/
def tokens? (text : String) : Option (List Token) :=
  if text.toList.all isPrintable then
    let chars := uniformBreaks text.toList
    let start : Cursor := { rest := chars }
    let start := if start.peek?.any (·.toNat == 0xFEFF) then start.skip 1 else start
    (Lexer.readAll? (chars.length + 2) { cursor := start }).map (·.tokens.toList)
  else none

end OpenApi.Yaml
