import OpenApi.Command.Fault
import OpenApi.Command.Files
import OpenApi.Command.Options
import OpenApi.Json.Writer
import OpenApi.Yaml.Writer

/-!
# The command `operations`

Prints the operations of a document. Other documents that its path items refer to are read when they
are first referred to, or beforehand if they are named.
-/

namespace OpenApi.Command

/-- The format of the output. -/
inductive Format where
  | json
  | yaml
deriving DecidableEq, Inhabited

/-- The format of a word. -/
def Format.ofWord? (word : String) : Option Format :=
  if word = "json" then some .json else if word = "yaml" then some .yaml else none

/-- Operations as JSON, or as YAML with a tag on what describes the values of a parameter. -/
def Format.write (format : Format) (routes : List Route) : String :=
  let value : Json.Value := .array (routes.map Route.toValue)
  match format with
  | .json => value.pretty
  | .yaml => Yaml.text ["parameters", "payload"] value

/-- The document, the format, and further documents. -/
structure Operations where
  input : String
  format : Format
  registry : List String
deriving Inhabited

namespace Operations

/-- The options of the command. -/
def options : Options := [("input", .single), ("format", .single), ("registry", .repeated)]

/-- Reads the arguments of the command; paths of further documents may be separated by commas. -/
def ofArguments? (arguments : List String) : Option Operations := do
  let given ← options.read? arguments
  return {
    input := ← (← given.value? "input") |> path?
    format := (← given.optional? "format" Format.ofWord?).getD .json
    registry := ← ((given.values "registry").flatMap (Text.pieces ',')).mapM path? }

/-! ## Documents -/

variable {m : Type → Type} [Monad m]

/-- Registers a file under its URL. -/
def registerFile (files : Files m) (r : Registry) (path : String) : ExceptT Error m Registry := do
  let uri ← files.uri path
  let text ← files.read path
  (r.registerYaml uri text).mapError Error.ofRegistration

/-- Reads a document and registers it under the text that it was read from. -/
def load (read? : String → m (Option String)) (r : Registry) (document : String) :
    ExceptT Error m Registry := do
  match ← (read? document : m _) with
  | none => throw .unreadableFile
  | some text => (r.registerYaml document text).mapError Error.ofRegistration

/-- The path item under a key of a document, which is read and registered if it is not known. -/
def onDemand (read? : String → m (Option String)) : PathItem.Resolver Error (StateT Registry m) :=
  fun document key => do
    let r ← get
    if r.contains document then return .ok (r.pathItem? document key)
    else
      match ← (load read? r document).run with
      | .error e => return .error e
      | .ok r => do
        set r
        return .ok (r.pathItem? document key)

/-- The path item under a key of a document that is read from a file. -/
def resolver (files : Files m) : PathItem.Resolver Error (StateT Registry m) :=
  onDemand files.readUri?

/-- More path items than files can hold. -/
def maxPathItems : Nat := Nat.pow 2 64

/-- The operations of the document. -/
def routes (c : Operations) (files : Files m) : ExceptT Error m (List Route) := do
  let registry ← c.registry.foldlM (registerFile files) {}
  let text ← files.read c.input
  let d ← (Document.ofYaml text).mapError Error.document
  let d := d.retrievedFrom (some (← files.uri c.input))
  let (routes, _) ← ((d.operations (some (resolver files)) maxPathItems).run.run registry : m _)
  routes.mapError Error.parameter

/-- What the command prints. -/
def run (c : Operations) (files : Files m) : ExceptT Fault m String := do
  let routes ← (c.routes files).adapt Fault.error
  return c.format.write routes

end Operations

end OpenApi.Command
