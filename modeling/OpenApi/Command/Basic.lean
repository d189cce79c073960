import OpenApi.Command.Anchors
import OpenApi.Command.Encode
import OpenApi.Command.Operations

/-!
# Commands

The three commands by name.
-/

namespace OpenApi.Command

/-- The names of the commands. -/
def commandNames : List String := ["operations", "encode", "anchors"]

variable {m : Type → Type} [Monad m]

/-- What a command prints, given its name and its arguments. -/
def run (files : Files m) (name : String) (arguments : List String) : ExceptT Fault m String := do
  match name with
  | "operations" =>
    let c ← Fault.ofArguments (Operations.ofArguments? arguments)
    c.run files
  | "encode" =>
    let c ← Fault.ofArguments (Encode.ofArguments? arguments)
    c.run
  | "anchors" =>
    let c ← Fault.ofArguments (Anchors.ofArguments? arguments)
    c.run files
  | _ => throw .usage

end OpenApi.Command
