import OpenApi.Error
import OpenApi.Uri.FilePath

/-!
# Files

How commands see files: a text by path, and the absolute path of what a path names. A file tree
holds all its files in memory.
-/

namespace OpenApi.Command

/-- Access to files; nothing where a path names none. -/
structure Files (m : Type → Type) where
  read? : String → m (Option String)
  absolute? : String → m (Option String)

/-! ## Access -/

namespace Files

variable {m : Type → Type} [Monad m]

/-- The text of a file. -/
def read (files : Files m) (path : String) : ExceptT Error m String := do
  match ← (files.read? path : m _) with
  | some text => return text
  | none => throw .unreadableFile

/-- The URL of a file. -/
def uri (files : Files m) (path : String) : ExceptT Error m String := do
  match ← (files.absolute? path : m _) with
  | some path => return (Uri.ofFilePath path).text
  | none => throw .unreadableFile

/-- The text of the file that a URL names. -/
def readUri? (files : Files m) (uri : String) : m (Option String) :=
  match (Uri.parse? uri).filter (·.scheme == "file") with
  | none => pure none
  | some uri =>
    match uri.filePath? with
    | none => pure none
    | some path => files.read? path

end Files

/-! ## File trees -/

/-- Files by the names on their paths, below a directory where relative paths start. -/
structure FileTree where
  directory : List String
  files : List (List String × String)
deriving Inhabited

namespace FileTree

/-- The names between the slashes of a path. -/
def names (path : String) : List String := Text.pieces '/' path

/-- The tree of files that are given by relative paths. -/
def ofList (directory : List String) (files : List (String × String)) : FileTree where
  directory
  files := files.map fun (path, text) => (directory ++ names path, text)

/-- The text of the file with a path. -/
def text? (t : FileTree) (path : List String) : Option String := t.files.lookup path

/-- Whether there is a directory with a path. -/
def isDirectory (t : FileTree) (path : List String) : Bool :=
  path.isPrefixOf t.directory ||
    t.files.any fun file => path.isPrefixOf file.1 && path.length < file.1.length

/-- Whether there is a file or directory with a path. -/
def has (t : FileTree) (path : List String) : Bool := (t.text? path).isSome || t.isDirectory path

/-- Goes from a directory to where names lead. -/
def walk? (t : FileTree) (path : List String) : List String → Option (List String)
  | [] => some path
  | name :: rest =>
    if !t.isDirectory path then none
    else if name.isEmpty || name == "." then t.walk? path rest
    else if name == ".." then t.walk? path.dropLast rest
    else if t.has (path ++ [name]) then t.walk? (path ++ [name]) rest
    else none

/-- What a path names. -/
def locate? (t : FileTree) (path : String) : Option (List String) :=
  t.walk? (if Text.startsWith "/" path then [] else t.directory) (names path)

/-- The files of a tree. -/
def toFiles (t : FileTree) : Files Id where
  read? path := (t.locate? path).bind t.text?
  absolute? path := (t.locate? path).map fun names => String.join (names.map ("/" ++ ·))

end FileTree

end OpenApi.Command
