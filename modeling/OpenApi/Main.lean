import OpenApi.Command.Basic

/-!
# The program

Runs a command on the files of the system and prints what it prints.
-/

namespace OpenApi

/-- The files of the system. -/
def systemFiles : Command.Files IO where
  read? path := (some <$> IO.FS.readFile path) <|> pure none
  absolute? path := ((fun p => some p.toString) <$> IO.FS.realPath path) <|> pure none

end OpenApi

open OpenApi in
/-- Runs the command that the first argument names. -/
def main (arguments : List String) : IO UInt32 := do
  let (name, rest) : String × List String :=
    match arguments with
    | name :: rest => (name, rest)
    | [] => ("", [])
  match ← (Command.run systemFiles name rest).run with
  | .ok text =>
    IO.println text
    return 0
  | .error fault =>
    IO.eprintln fault.message
    return 1
