import OpenApi.Json.Value
import OpenApi.Schema.Loading

/-!
# Unreadable values

Why a JSON value is no description of an API. Where a value has several faults the first member
that cannot be read counts.
-/

namespace OpenApi

/-- Why a value cannot be read: a path item or a component schema is at fault, or something else
has another form than expected. -/
inductive ReadFault where
  | pathItem (key : String)
  | schema (fault : Schema.LoadFault)
  | mismatch
deriving DecidableEq, Inhabited

/-- The fault of a value that is read if it has the expected form. -/
def ReadFault.ofOption (found : Option α) : Except ReadFault α :=
  match found with
  | some a => .ok a
  | none => .error .mismatch

/-- Reads the members of an object from left to right into something. -/
def readMembers (step : σ → String → Json.Value → Except ReadFault σ) (start : σ)
    (v : Json.Value) : Except ReadFault σ := do
  let ms ← ReadFault.ofOption v.members?
  ms.foldlM (fun s m => step s m.1 m.2) start

end OpenApi
