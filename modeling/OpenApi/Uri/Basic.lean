import OpenApi.OrderedMap
import OpenApi.Percent

/-!
# URLs

The parts of a URL as the URL standard has them, with percent-encoding already applied, and the
text of a URL. The path is a list of segments, each written after a `/`, or one piece of text where
the URL has no hierarchy (`urn:example:api`).
-/

namespace OpenApi

/-- The user information, host and port after `//`. The user information carries no `@` and is
empty where none is written; the host is empty where none is given. -/
structure Uri.Authority where
  userInfo : String := ""
  host : String := ""
  port : Option Nat := none
deriving DecidableEq, Inhabited

/-- The path of a URL. -/
inductive Uri.Path where
  | segments (names : List String)
  | bare (text : String)
deriving DecidableEq, Inhabited

/-- A URL. -/
structure Uri where
  scheme : String
  authority : Option Uri.Authority
  path : Uri.Path
  query : Option String
  fragment : Option String
deriving DecidableEq, Inhabited

namespace Uri

/-! ## Schemes -/

/-- The schemes whose URLs always have a host and a path, with their default ports. -/
def specialSchemes : List (String × Option Nat) :=
  [("http", some 80), ("https", some 443), ("ws", some 80), ("wss", some 443), ("ftp", some 21),
    ("file", none)]

/-- Whether a scheme is one of the special ones. -/
def isSpecial (scheme : String) : Bool := specialSchemes.any (·.1 == scheme)

/-- The port that a scheme leaves unwritten. -/
def defaultPort (scheme : String) : Option Nat := (Entries.get? scheme specialSchemes).join

/-! ## Text -/

/-- The text of a path: every segment after a slash. -/
def Path.text : Path → String
  | .segments names => String.join (names.map ("/" ++ ·))
  | .bare text => text

/-- The text of an authority, with its leading slashes. -/
def Authority.text (a : Authority) : String :=
  "//" ++ (if a.userInfo.isEmpty then "" else a.userInfo ++ "@") ++ a.host ++
    (match a.port with
    | some port => ":" ++ String.ofList (Nat.toDigits 10 port)
    | none => "")

/-- A path that begins with an empty segment is written after `/.` where no authority stands before
it, so that its slashes are not taken for one. -/
def Path.guard (authority : Option Authority) : Path → String
  | .segments ("" :: _ :: _) => if authority.isNone then "/." else ""
  | _ => ""

/-- A part of a URL after its mark, nothing where the part is absent. -/
def markedPart (mark : String) : Option String → String
  | some text => mark ++ text
  | none => ""

/-- The text of a URL. -/
def text (u : Uri) : String :=
  u.scheme ++ ":" ++ (u.authority.map Authority.text).getD "" ++ u.path.guard u.authority ++
    u.path.text ++ markedPart "?" u.query ++ markedPart "#" u.fragment

/-- The host, if one is given. -/
def host? (u : Uri) : Option String :=
  match u.authority with
  | some a => if a.host.isEmpty then none else some a.host
  | none => none

/-- The port, if it is not the default one of the scheme. -/
def port? (u : Uri) : Option Nat := u.authority.bind (·.port)

end Uri

end OpenApi
