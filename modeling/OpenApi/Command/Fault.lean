import OpenApi.Error

/-!
# Faults of commands

Why a command prints nothing.
-/

namespace OpenApi.Command

/-- The arguments are not accepted, something is wrong with what was asked, or there is no
answer. -/
inductive Fault where
  | usage
  | error (e : Error)
  | emptySchema
  | noSchemaAt (pointer : String)
  | unresolved (reference pointer : String)
deriving DecidableEq, Inhabited

/-- The message of a fault. -/
def Fault.message : Fault → String
  | .usage => "unexpected arguments"
  | .error e => e.message
  | .emptySchema => "Operation failed: Schema document is empty"
  | .noSchemaAt pointer => "Operation failed: No schema at pointer '" ++ pointer ++ "'"
  | .unresolved reference pointer =>
    "Operation failed: Dynamic reference '" ++ reference ++ "' is unresolved at '" ++ pointer ++ "'"

/-- The fault of arguments that are read if they are accepted. -/
def Fault.ofArguments (found : Option α) : Except Fault α :=
  match found with
  | some a => .ok a
  | none => .error .usage

end OpenApi.Command
