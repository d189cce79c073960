import OpenApi.Command.Fault
import OpenApi.Command.Options
import OpenApi.Json.Reader

/-!
# The command `encode`

Prints the wire form of a parameter value. A value that is no JSON text is a string.
-/

namespace OpenApi.Command

open Parameter

/-- What is encoded. -/
structure Encode where
  encoding : Encoding
  name : String
  value : String
deriving Inhabited

namespace Encode

/-- The options of the command. -/
def options : Options :=
  [("location", .single), ("style", .single), ("explode", .single), ("allow-reserved", .flag),
    ("name", .single), ("value", .single)]

/-- Reads the arguments of the command. -/
def ofArguments? (arguments : List String) : Option Encode := do
  let given ← options.read? arguments
  return {
    encoding := {
      location := ← (← given.value? "location") |> Location.ofWord?
      style := ← given.optional? "style" Style.ofWord?
      explode := ← given.optional? "explode" boolOfWord?
      allowReserved := given.has "allow-reserved" }
    name := ← given.value? "name"
    value := ← given.value? "value" }

/-- What the command prints. -/
def run (c : Encode) : Except Fault String :=
  let value := (Json.read? c.value).getD (.string c.value)
  match c.encoding.encode (.ofValue value) c.name value with
  | .ok wire => .ok wire.text
  | .error e => .error (.error (.parameter e))

end Encode

end OpenApi.Command
