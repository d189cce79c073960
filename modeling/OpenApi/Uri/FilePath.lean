import OpenApi.Uri.Parser

/-!
# File URLs

The URL of an absolute path and the path of a file URL.
-/

namespace OpenApi.Uri

open Text

/-- Kept in a segment of a path that becomes a URL. -/
def keptInFileName (c : Char) : Bool :=
  keptInPath c && !(['/', '%', '\\'].contains c)

/-- The URL of an absolute path. -/
def ofFilePath (path : String) : Uri :=
  let names := (pieces '/' path).filter fun name => !name.isEmpty
  { scheme := "file", authority := noHost,
    path := .segments (if names.isEmpty then [""] else names.map (Percent.encode keptInFileName)),
    query := none, fragment := none }

/-- The absolute path that the URL of a file without host stands for, if it is a text. -/
def filePath? (u : Uri) : Option String :=
  match u.host?, u.path with
  | none, .segments names => do
    let decoded ← names.mapM Percent.decode?
    return String.join (decoded.map ("/" ++ ·))
  | _, _ => none

end OpenApi.Uri
