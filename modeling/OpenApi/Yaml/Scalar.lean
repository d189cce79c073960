import OpenApi.Text
import OpenApi.Yaml.Cursor

/-!
# Scalars in YAML texts

The three ways to write a scalar: plain, quoted and as a block. Within a plain or quoted scalar a
line end is folded: one of them stands for a space, several for all but the first. In a block they
are kept, or folded between lines that begin with no blank.
-/

namespace OpenApi.Yaml

/-! ## Folding -/

/-- The line ends after a first one, with the blanks around them; none if a tab stands to the left
of a column. -/
def furtherBreaks? (column : Nat) : Nat → Cursor → Option (List Char × Cursor)
  | 0, _ => none
  | fuel + 1, c =>
    match c.peek? with
    | some ch =>
      if isBreak ch then
        (furtherBreaks? column fuel c.skipLine).map fun (chs, c) => (ch :: chs, c)
      else if ch == ' ' then furtherBreaks? column fuel (c.skip 1)
      else if ch == '\t' then
        if c.column < column then none else furtherBreaks? column fuel (c.skip 1)
      else some ([], c)
    | none => some ([], c)

/-- What a first line end and further ones stand for. -/
def foldBreaks (first : Char) (further : List Char) : List Char :=
  if first == '\n' then (if further.isEmpty then [' '] else further) else first :: further

/-- What the blanks and line ends here stand for, whether a line ended, and the position after
them. -/
def gap? (column : Nat) (c : Cursor) : Option (List Char × Bool × Cursor) :=
  let (blanks, c) := c.span isBlank
  match c.peek? with
  | some ch =>
    if isBreak ch then
      (furtherBreaks? column (c.rest.length + 1) c.skipLine).map fun (further, c) =>
        (foldBreaks ch further, true, c)
    else some (blanks, false, c)
  | none => some (blanks, false, c)

/-! ## Quoted scalars -/

/-- The characters of escapes with one letter. -/
def shortEscapes : List (Char × Nat) :=
  [('0', 0x00), ('a', 0x07), ('b', 0x08), ('t', 0x09), ('\t', 0x09), ('n', 0x0A), ('v', 0x0B),
    ('f', 0x0C), ('r', 0x0D), ('e', 0x1B), (' ', 0x20), ('"', 0x22), ('/', 0x2F), ('\\', 0x5C),
    ('N', 0x85), ('_', 0xA0), ('L', 0x2028), ('P', 0x2029)]

/-- The numbers of digits of escapes with a code. -/
def codeEscapes : List (Char × Nat) := [('x', 2), ('u', 4), ('U', 8)]

/-- The character with a code. -/
def charOfCode? (n : Nat) : Option Char :=
  if 0xD800 ≤ n ∧ n ≤ 0xDFFF ∨ 0x10FFFF < n then none else some (Char.ofNat n)

/-- The character of an escape whose letter stands at the front, and how many characters stand for
it. -/
def escape? (cs : List Char) : Option (Char × Nat) :=
  match cs with
  | [] => none
  | letter :: digits =>
    match shortEscapes.lookup letter, codeEscapes.lookup letter with
    | some code, _ => some (Char.ofNat code, 1)
    | none, some count => do
      if digits.length < count then none
      else
        let values ← (digits.take count).mapM Text.hexValue?
        let ch ← charOfCode? (values.foldl (fun n d => n * 16 + d) 0)
        return (ch, count + 1)
    | none, none => none

/-- The text of a quoted scalar from here to its closing quote. -/
def quoted? (quote : Char) : Nat → Cursor → Option (List Char × Cursor)
  | 0, _ => none
  | fuel + 1, c =>
    if c.atDocumentMark then none
    else
      match c.rest with
      | [] => none
      | ch :: rest =>
        if ch == quote then
          if quote != '"' && rest.head? == some quote then
            (quoted? quote fuel (c.skip 2)).map fun (text, c) => (quote :: text, c)
          else some ([], c.skip 1)
        else if quote == '"' && ch == '\\' then
          if rest.head?.any isBreak then do
            let (further, c) ← furtherBreaks? 0 (rest.length + 1) (c.skip 1).skipLine
            let (text, c) ← quoted? quote fuel c
            return (further ++ text, c)
          else do
            let (escaped, count) ← escape? rest
            let (text, c) ← quoted? quote fuel (c.skip (count + 1))
            return (escaped :: text, c)
        else if isBlank ch || isBreak ch then do
          let (folded, _, c) ← gap? 0 c
          let (text, c) ← quoted? quote fuel c
          return (folded ++ text, c)
        else (quoted? quote fuel (c.skip 1)).map fun (text, c) => (ch :: text, c)

/-! ## Plain scalars -/

/-- The characters of a plain scalar up to a blank, a line end or an indicator; none where a colon
stands before an indicator of a flow collection. -/
def plainRun? (flow : Bool) : List Char → Option (List Char)
  | [] => some []
  | c :: rest =>
    if isBlank c || isBreak c then some []
    else if flow && c == ':' && rest.head?.any ('?' :: flowIndicators).contains then none
    else if c == ':' && endsWord rest.head? then some []
    else if flow && flowIndicators.contains c then some []
    else (plainRun? flow rest).map (c :: ·)

/-- The text of a plain scalar from here on, whether a line ended after it, and the position of what
follows. Outside flow collections its lines begin at a column or to the right of it. -/
def plain? (flow : Bool) (column : Nat) : Nat → Cursor → Option (List Char × Bool × Cursor)
  | 0, _ => none
  | fuel + 1, c => do
    let run ← plainRun? flow c.rest
    let (folded, broken, c) ← gap? column (c.skip run.length)
    if run.isEmpty || (folded.isEmpty && !broken) || c.atDocumentMark || c.at? '#' ||
        (!flow && c.column < column) then
      return (run, broken, c)
    else
      let (text, brokenAfter, c) ← plain? flow column fuel c
      if text.isEmpty then return (run, broken || brokenAfter, c)
      else return (run ++ folded ++ text, brokenAfter, c)

/-! ## Block scalars -/

/-- What becomes of the line ends after the last line of a block. -/
inductive Chomping where
  | strip
  | clip
  | keep
deriving DecidableEq, Inhabited

/-- The chomping that an indicator stands for. -/
def Chomping.ofIndicator? (c : Char) : Option Chomping :=
  if c == '+' then some .keep else if c == '-' then some .strip else none

/-- The header of a block: chomping, and an indentation of one to nine. -/
def blockHeader? (c : Cursor) : Option (Chomping × Option Nat × Cursor) :=
  let chomping (c : Cursor) : Chomping × Cursor :=
    match c.peek?.bind Chomping.ofIndicator? with
    | some chomping => (chomping, c.skip 1)
    | none => (.clip, c)
  let increment? (c : Cursor) : Option (Option Nat × Cursor) :=
    match c.peek? with
    | some ch =>
      if ch == '0' then none
      else if ch.isDigit then some (some (ch.toNat - 0x30), c.skip 1)
      else some (none, c)
    | none => some (none, c)
  if (c.peek?.bind Chomping.ofIndicator?).isSome then
    let (chomp, c) := chomping c
    (increment? c).map fun (increment, c) => (chomp, increment, c)
  else
    (increment? c).map fun (increment, c) =>
      if increment.isSome then
        let (chomp, c) := chomping c
        (chomp, increment, c)
      else (.clip, none, c)

/-- The empty lines here, the greatest column of their ends and of the next line's start, and that
start; none if a tab stands where spaces indent. Spaces count as indentation up to a column, if one
is given. -/
def emptyLines? (column : Option Nat) : Nat → Cursor → Option (List Char × Nat × Cursor)
  | 0, _ => none
  | fuel + 1, c =>
    let spaces := (c.rest.takeWhile (· == ' ')).length
    let c := c.skip (match column with
      | some column => min spaces (column - c.column)
      | none => spaces)
    if c.at? '\t' && column.all (c.column < ·) then none
    else
      match c.peek? with
      | some ch =>
        if isBreak ch then
          (emptyLines? column fuel c.skipLine).map fun (breaks, most, next) =>
            (ch :: breaks, max c.column most, next)
        else some ([], c.column, c)
      | none => some ([], c.column, c)

/-- What stands between a line and the next: the line end, which is folded between lines that begin
with no blank, and empty lines. -/
def betweenLines (literal : Bool) (lineEnd breaks : List Char) (blankBefore blankAfter : Bool) :
    List Char :=
  if !literal && lineEnd == ['\n'] && !blankBefore && !blankAfter then
    if breaks.isEmpty then [' '] else breaks
  else lineEnd ++ breaks

/-- The lines of a block that begin at a column, given what stands between the last line and here;
the text, the last line end, the empty lines after it, and the position of what follows. -/
def blockLines? (literal : Bool) (column : Nat) (lineEnd breaks : List Char)
    (blankBefore : Bool) :
    Nat → Cursor → Option (List Char × List Char × List Char × Cursor)
  | 0, _ => none
  | fuel + 1, c =>
    if c.column != column || c.rest.isEmpty then some ([], lineEnd, breaks, c)
    else do
      let blank := c.peek?.any isBlank
      let between := betweenLines literal lineEnd breaks blankBefore blank
      let (line, c) := c.span fun ch => !isBreak ch
      let lineEnd := c.rest.take 1
      let (breaks, _, c) ← emptyLines? (some column) (c.rest.length + 1)
        (if lineEnd.isEmpty then c else c.skipLine)
      let (text, lineEnd, breaks, c) ← blockLines? literal column lineEnd breaks blank fuel c
      return (between ++ line ++ text, lineEnd, breaks, c)

/-- The text of a block scalar after its indicator, in a collection at a column if there is one. -/
def block? (literal : Bool) (outer : Option Nat) (c : Cursor) : Option (List Char × Cursor) := do
  let (chomping, increment, c) ← blockHeader? c
  let c ← c.skipToNextLine?
  let column := increment.map fun n => outer.getD 0 + n
  let (breaks, most, c) ← emptyLines? column (c.rest.length + 1) c
  let column := column.getD (max most (match outer with
    | some outer => outer + 1
    | none => 1))
  let (text, lineEnd, breaks, c) ←
    blockLines? literal column [] breaks false (c.rest.length + 1) c
  return (text ++ (if chomping == .strip then [] else lineEnd) ++
    (if chomping == .keep then breaks else []), c)

end OpenApi.Yaml
