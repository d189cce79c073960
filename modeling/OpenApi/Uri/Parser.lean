import OpenApi.Uri.Basic
import OpenApi.Uri.Host

/-!
# Reading URLs

`Uri.parse?` reads an absolute URL and `Uri.join?` a reference against a base, as the URL standard
does: white space around the text and tabs and line ends in it are dropped, scheme and host are
lowered, default ports are left out, dot segments (also written `%2e`) are resolved, and what the
standard encodes is percent-encoded. A backslash separates segments in special URLs, and no double
dot leaves the drive letter that the path of a file begins with.

Special URLs are read with ASCII domains only. The standard also reads international ones and puts
their labels into ASCII (`ü` becomes `xn--tda`), which is left out here.
-/

namespace OpenApi.Uri

open Text

/-! ## Characters -/

/-- Printable ASCII outside the given characters. -/
def keepsExcept (excluded : List Char) (c : Char) : Bool :=
  0x20 ≤ c.toNat && c.toNat < 0x7F && !excluded.contains c

/-- Kept in a path without hierarchy. -/
def keptInBarePath : Char → Bool := keepsExcept []

/-- Kept in a fragment. -/
def keptInFragment : Char → Bool := keepsExcept [' ', '"', '<', '>', Char.ofNat 0x60]

/-- Kept in a query. -/
def keptInQuery (special : Bool) (c : Char) : Bool :=
  keepsExcept [' ', '"', '#', '<', '>'] c && !(special && c == Char.ofNat 0x27)

/-- Kept in a path segment. -/
def keptInPath : Char → Bool :=
  keepsExcept [' ', '"', '#', '<', '>', '?', '^', Char.ofNat 0x60, '{', '}']

/-- Kept in user information. -/
def keptInUserInfo (c : Char) : Bool :=
  keptInPath c && !(['/', ':', ';', '=', '@', '[', '\\', ']', '|'].contains c)

/-- Whether a character ends a segment. -/
def isSlash (special : Bool) (c : Char) : Bool := c == '/' || (special && c == '\\')

/-- Whether a character ends the path. -/
def endsPath (c : Char) : Bool := c == '?' || c == '#'

/-- Whether a character ends the authority. -/
def endsAuthority (special : Bool) (c : Char) : Bool := isSlash special c || endsPath c

/-- The text without control characters and spaces around it and without tabs and line ends. -/
def clean (cs : List Char) : List Char :=
  let outer (c : Char) : Bool := c.toNat ≤ 0x20
  (dropEndWhile outer (cs.dropWhile outer)).filter fun c => !(['\t', '\n', '\r'].contains c)

/-! ## Scheme -/

/-- Takes scheme characters up to the colon. -/
def schemeTail? : List Char → Option (List Char × List Char)
  | [] => none
  | ':' :: rest => some ([], rest)
  | c :: rest =>
    if c.isAlphanum || c == '+' || c == '-' || c == '.' then
      (schemeTail? rest).map fun (cs, rest) => (c.toLower :: cs, rest)
    else none

/-- The scheme at the front of a text, in lower case, and what follows its colon. -/
def scheme? (cs : List Char) : Option (String × List Char) :=
  match cs with
  | c :: _ =>
    if c.isAlpha then (schemeTail? cs).map fun (s, rest) => (String.ofList s, rest) else none
  | [] => none

/-! ## Path -/

/-- Whether a segment is a single dot. -/
def isDot (segment : List Char) : Bool :=
  segment == ['.'] || segment.map Char.toLower == ['%', '2', 'e']

/-- Whether a segment is a double dot. -/
def isDoubleDot (segment : List Char) : Bool :=
  let dots := segment.map Char.toLower
  dots == ['.', '.'] || dots == ['%', '2', 'e', '.'] || dots == ['.', '%', '2', 'e'] ||
    dots == ['%', '2', 'e', '%', '2', 'e']

/-- Whether a segment is a drive letter: a letter and a colon or bar. -/
def isDrive (segment : List Char) : Bool :=
  match segment with
  | [letter, mark] => letter.isAlpha && (mark == ':' || mark == '|')
  | _ => false

/-- Whether a segment of a URL is a drive letter in its normal form, with a colon. -/
def isDriveName (name : String) : Bool := isDrive name.toList && name.toList.getLast? == some ':'

/-- Whether a segment is a drive letter, or one with a backslash after it. -/
def beginsWithDrive (segment : List Char) : Bool :=
  isDrive (segment.takeWhile (· != '\\'))

/-- The segments without the last one; a drive letter stays. -/
def parent (names : List String) : List String :=
  match names.getLast? with
  | some last => if beginsWithDrive last.toList then names else names.dropLast
  | none => []

/-- A segment as it is kept: percent-encoded, and with a colon if it is the drive of a file. -/
def segmentText (file : Bool) (first : Bool) (segment : List Char) : String :=
  match segment with
  | [letter, '|'] =>
    if file && first && letter.isAlpha then String.ofList [letter, ':']
    else String.ofList (Percent.encodeChars keptInPath segment)
  | segment => String.ofList (Percent.encodeChars keptInPath segment)

/-- Appends segments to a path. A single dot stands for the path itself, a double dot for its
parent; at the end of the path either leaves an empty segment. -/
def appendSegments (file : Bool) (names : List String) : List (List Char) → List String
  | [] => names
  | segment :: rest =>
    let names :=
      if isDoubleDot segment then parent names ++ (if rest.isEmpty then [""] else [])
      else if isDot segment then names ++ (if rest.isEmpty then [""] else [])
      else names ++ [segmentText file names.isEmpty segment]
    appendSegments file names rest

/-- Appends segments to the path of a file that ends in a drive letter, with no slash between them:
a name continues the drive letter's segment, and a double dot at the end changes nothing. -/
def continueDrive (names : List String) (drive : String) : List (List Char) → List String
  | [] => names ++ [drive]
  | segment :: rest =>
    if isDoubleDot segment && rest.isEmpty then names ++ [drive]
    else if isDot segment || isDoubleDot segment then
      appendSegments true (names ++ [drive]) (segment :: rest)
    else appendSegments true (names ++ [drive ++ segmentText true false segment]) rest

/-- The pieces of a list of characters between those of a class. -/
def splitAtAny (p : Char → Bool) : List Char → List (List Char)
  | [] => [[]]
  | c :: cs =>
    if p c then [] :: splitAtAny p cs
    else
      match splitAtAny p cs with
      | [] => [[c]]
      | piece :: pieces => (c :: piece) :: pieces

/-- The path of a file begins with a segment that is not empty, unless all are. -/
def dropEmptyFront (names : List String) : List String :=
  match names.dropWhile (·.isEmpty) with
  | [] => [""]
  | names => names

/-- The segments in front of a query or fragment. -/
def writtenSegments (special : Bool) (cs : List Char) : List (List Char) :=
  splitAtAny (isSlash special) (cs.takeWhile (!endsPath ·))

/-- Reads the segments in front of a query or fragment and appends them to a path. -/
def readSegments (scheme : String) (names : List String) (cs : List Char) : List String :=
  let file := scheme == "file"
  let read := appendSegments file names (writtenSegments (isSpecial scheme) cs)
  if file then dropEmptyFront read else read

/-- Reads the segments in front of a query or fragment, relative to the path of a file. -/
def readFromFile (base : List String) (cs : List Char) : List String :=
  let segments := writtenSegments true cs
  dropEmptyFront <|
    match base.getLast? with
    | some last =>
      if isDriveName last then continueDrive base.dropLast last segments
      else appendSegments true base.dropLast segments
    | none => appendSegments true [] segments

/-! ## Query and fragment -/

/-- The fragment written after a `#`. -/
def fragmentText (cs : List Char) : String :=
  String.ofList (Percent.encodeChars keptInFragment cs)

/-- Reads the query and fragment that follow a path. -/
def readTail (scheme : String) (cs : List Char) : Option String × Option String :=
  match cs with
  | '?' :: rest =>
    let query := Percent.encodeChars (keptInQuery (isSpecial scheme)) (rest.takeWhile (· != '#'))
    let fragment :=
      match rest.dropWhile (· != '#') with
      | '#' :: rest => some (fragmentText rest)
      | _ => none
    (some (String.ofList query), fragment)
  | '#' :: rest => (none, some (fragmentText rest))
  | _ => (none, none)

/-- The URL with the given path, and with the query and fragment that a text gives. -/
def withTail (scheme : String) (authority : Option Authority) (path : Path) (cs : List Char) :
    Uri :=
  let (query, fragment) := readTail scheme (cs.dropWhile (!endsPath ·))
  { scheme, authority, path, query, fragment }

/-- The URL with the path, query and fragment that a text gives, the path continuing `names`. -/
def withPath (scheme : String) (authority : Option Authority) (names : List String)
    (cs : List Char) : Uri :=
  withTail scheme authority (.segments (readSegments scheme names cs)) cs

/-- The URL whose path starts at a text after its authority. -/
def withPathStart (scheme : String) (authority : Option Authority) (cs : List Char) : Uri :=
  match cs with
  | [] =>
    { scheme, authority, path := .segments (if isSpecial scheme then [""] else []), query := none,
      fragment := none }
  | c :: rest =>
    if isSlash (isSpecial scheme) c then withPath scheme authority [] rest
    else if endsPath c && !isSpecial scheme then withTail scheme authority (.segments []) cs
    else withPath scheme authority [] cs

/-! ## Authority -/

/-- The parts before and after the last `@`. -/
def cutLastAt? (cs : List Char) : Option (List Char × List Char) :=
  (cut? '@' cs.reverse).map fun (back, front) => (front.reverse, back.reverse)

/-- User information: a name, and a password after the first colon if it is not empty. -/
def userInfoText (cs : List Char) : String :=
  let encode (part : List Char) := String.ofList (Percent.encodeChars keptInUserInfo part)
  match cut? ':' cs with
  | none => encode cs
  | some (name, password) =>
    encode name ++ (if password.isEmpty then "" else ":" ++ encode password)

/-- Takes the host up to a colon outside brackets. -/
def takeHost (bracketed : Bool) : List Char → List Char × List Char
  | [] => ([], [])
  | c :: rest =>
    if c == ':' && !bracketed then ([], c :: rest)
    else
      let bracketed := if c == '[' then true else if c == ']' then false else bracketed
      let (host, after) := takeHost bracketed rest
      (c :: host, after)

/-- Reads a port of at most 65535 after its colon; gives the port, unless it is the scheme's
default or empty, and what follows its digits. -/
def readPort? (scheme : String) (cs : List Char) : Option (Option Nat × List Char) :=
  let digits := cs.takeWhile Char.isDigit
  let rest := cs.dropWhile Char.isDigit
  let value := digits.foldl (fun acc c => if acc > 65535 then acc else acc * 10 + (c.toNat - 0x30)) 0
  if value > 65535 || !(rest.isEmpty || rest.head? == some '\\') then none
  else if digits.isEmpty || some value == defaultPort scheme then some (none, rest)
  else some (some value, rest)

/-- Reads host and port; a host is required in special URLs and before a port. -/
def hostAndPort? (scheme : String) (cs : List Char) : Option (String × Option Nat × List Char) := do
  let (hostChars, rest) := takeHost false cs
  let special := isSpecial scheme
  if hostChars.isEmpty && (special || !rest.isEmpty) then none
  else
    let host ← if special then Host.special? hostChars else Host.general? hostChars
    match rest with
    | _ :: rest => do
      let (port, rest) ← readPort? scheme rest
      return (host, port, rest)
    | [] => return (host, none, [])

/-- Reads a URL from its authority on. -/
def fromAuthority? (scheme : String) (cs : List Char) : Option Uri := do
  let special := isSpecial scheme
  let inside := cs.takeWhile (!endsAuthority special ·)
  let beyond := cs.dropWhile (!endsAuthority special ·)
  let (userChars, hostChars) := (cutLastAt? inside).getD ([], inside)
  if inside.head? == some '@' && hostChars.isEmpty && !beyond.isEmpty then none
  else
    let userInfo := userInfoText userChars
    let (host, port, rest) ← hostAndPort? scheme hostChars
    if host.isEmpty && !userInfo.isEmpty then none
    else return withPathStart scheme (some { userInfo, host, port }) (rest ++ beyond)

/-! ## Files -/

/-- Whether a text begins with a drive letter as its first segment. -/
def startsWithDrive (cs : List Char) : Bool :=
  isDrive (cs.takeWhile fun c => !endsAuthority true c)

/-- The authority of a file without host. -/
def noHost : Option Authority := some {}

/-- Whether the path that is written after an authority begins with a drive letter once its dots are
resolved. -/
def pathHasDrive : List Char → Bool
  | [] => false
  | c :: cs =>
    isSlash true c &&
      match appendSegments true [] (writtenSegments true cs) with
      | first :: _ => isDriveName first
      | [] => false

/-- Reads the URL of a file after `file://`: the host, dropped if it is local or the path has a
drive letter, and the path. -/
def fileFromHost? (cs : List Char) : Option Uri :=
  let hostChars := cs.takeWhile fun c => !endsAuthority true c
  let rest := cs.dropWhile fun c => !endsAuthority true c
  if isDrive hostChars then some (withPath "file" noHost [] cs)
  else if hostChars.isEmpty then some (withPathStart "file" noHost rest)
  else
    (Host.special? hostChars).map fun host =>
      let url := withPathStart "file" (some { host }) rest
      if host == "localhost" || pathHasDrive rest then { url with authority := noHost } else url

/-- The segments of a path; none where there is no hierarchy. -/
def Path.names : Path → List String
  | .segments names => names
  | .bare _ => []

/-- Reads what follows `file:`, or a reference without scheme against a file. -/
def file? (base : Option Uri) (cs : List Char) : Option Uri :=
  match cs with
  | a :: b :: rest =>
    if isSlash true a && isSlash true b then fileFromHost? rest
    else if isSlash true a then some (rooted (b :: rest))
    else relativeToFile cs
  | [a] => if isSlash true a then some (rooted []) else relativeToFile cs
  | [] => relativeToFile []
where
  /-- A path from the root of the base's host, or from the base's drive. -/
  rooted (cs : List Char) : Uri :=
    if startsWithDrive cs then withPath "file" noHost [] cs
    else
      match ((base.map (·.path.names)).getD []).head?.filter isDriveName with
      | some drive => withPath "file" noHost [drive] cs
      | none => withPath "file" ((base.bind (·.authority)).or noHost) [] cs
  /-- A path, query or fragment that does not begin with a slash. -/
  relativeToFile (cs : List Char) : Option Uri :=
    match base with
    | none => some (withPath "file" noHost [] cs)
    | some base =>
      match cs with
      | [] => some { base with fragment := none }
      | '?' :: _ =>
        let (query, fragment) := readTail "file" cs
        some { base with query, fragment }
      | '#' :: rest => some { base with fragment := some (fragmentText rest) }
      | cs =>
        if startsWithDrive cs then some (withPath "file" noHost [] cs)
        else some (withTail "file" base.authority (.segments (readFromFile base.path.names cs)) cs)

/-! ## References -/

/-- Reads a reference without scheme against a base that is no file. -/
def relative? (base : Uri) (cs : List Char) : Option Uri :=
  match cs with
  | [] => some { base with fragment := none }
  | '?' :: _ =>
    let (query, fragment) := readTail base.scheme cs
    some { base with query, fragment }
  | '#' :: rest => some { base with fragment := some (fragmentText rest) }
  | c :: rest =>
    if isSlash true c then
      match rest with
      | d :: after =>
        if c == '/' && d == '/' then fromAuthority? base.scheme after
        else if isSlash true d then fromAuthority? base.scheme (after.dropWhile (isSlash true))
        else some (withPath base.scheme base.authority [] rest)
      | [] => some (withPath base.scheme base.authority [] [])
    else some (withPath base.scheme base.authority base.path.names.dropLast cs)

/-- Reads what follows a scheme that is not special: an authority, a path, or bare text. -/
def general? (scheme : String) (cs : List Char) : Option Uri :=
  match cs with
  | '/' :: '/' :: rest => fromAuthority? scheme rest
  | '/' :: rest => some (withPath scheme none [] rest)
  | cs =>
    let (query, fragment) := readTail scheme (cs.dropWhile (!endsPath ·))
    let text := Percent.encodeChars keptInBarePath (cs.takeWhile (!endsPath ·))
    some { scheme, authority := none, path := .bare (String.ofList text), query, fragment }

/-- Reads what follows a scheme. A special scheme equal to the base's may leave out the slashes. -/
def afterScheme? (base : Option Uri) (scheme : String) (cs : List Char) : Option Uri :=
  if scheme == "file" then file? (base.filter (·.scheme == "file")) cs
  else if isSpecial scheme then
    let slashes := (cs.takeWhile (isSlash true)).length
    match base.filter (·.scheme == scheme) with
    | some base =>
      if slashes < 2 then relative? base cs else fromAuthority? scheme (cs.drop slashes)
    | none => fromAuthority? scheme (cs.drop slashes)
  else general? scheme cs

/-- Reads an absolute URL, or a reference against a base. -/
def read? (base : Option Uri) (reference : String) : Option Uri :=
  let cs := clean reference.toList
  match scheme? cs with
  | some (scheme, rest) => afterScheme? base scheme rest
  | none =>
    match base with
    | none => none
    | some base =>
      match base.path, cs with
      | .bare _, '#' :: rest => some { base with fragment := some (fragmentText rest) }
      | .bare _, _ => none
      | .segments _, cs => if base.scheme == "file" then file? (some base) cs else relative? base cs

/-- The absolute URL that a text is, if it is one. One with an international domain is not read. -/
def parse? (text : String) : Option Uri := read? none text

/-- The URL that a reference stands for in a base. -/
def join? (base : Uri) (reference : String) : Option Uri := read? (some base) reference

end OpenApi.Uri
