import OpenApi.Registry

/-!
# Errors

Everything that can be wrong with what is asked, and its message.
-/

namespace OpenApi

/-- An error. -/
inductive Error where
  | unreadableFile
  | unknownLocation (word : String)
  | unknownStyle (word : String)
  | schema (fault : Schema.LoadFault)
  | schemaText
  | document (fault : DocumentFault)
  | parameter (e : Parameter.Invalid)
  | collision (name retrieval : String)
deriving DecidableEq, Inhabited

namespace Error

/-- The error of a document that is not registered. -/
def ofRegistration : Registry.Fault → Error
  | .document fault => .document fault
  | .collision name retrieval => .collision name retrieval

/-- Whether something could not be read into what it should describe. -/
def isParseError : Error → Bool
  | .unknownLocation _ | .unknownStyle _ | .schema _ | .schemaText | .document _ => true
  | _ => false

/-- The cause of an error in words, without its kind. -/
def detail : Error → String
  | .unreadableFile => "cannot read file"
  | .unknownLocation word => "Unknown parameter location '" ++ word ++ "'"
  | .unknownStyle word => "Unknown parameter style '" ++ word ++ "'"
  | .schema fault => fault.message
  | .schemaText => "Failed to parse schema"
  | .document fault => fault.message
  | .parameter e => e.message
  | .collision name retrieval =>
    "Document registry URI collision for '" ++ name ++ "': already registered as " ++ retrieval

/-- The message of an error. -/
def message : Error → String
  | .unreadableFile => "IO Error: " ++ Error.unreadableFile.detail
  | .parameter e => e.message
  | .collision name retrieval => "General Error: " ++ (Error.collision name retrieval).detail
  | e => "Parse Error: " ++ e.detail

end Error

/-- The location of a word. -/
def Parameter.Location.ofWord (word : String) : Except Error Parameter.Location :=
  match ofWord? word with
  | some location => .ok location
  | none => .error (.unknownLocation word)

/-- The style of a word. -/
def Parameter.Style.ofWord (word : String) : Except Error Parameter.Style :=
  match ofWord? word with
  | some style => .ok style
  | none => .error (.unknownStyle word)

end OpenApi
