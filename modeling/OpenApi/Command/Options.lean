import OpenApi.Text

/-!
# Command line options

Arguments of the forms `--name value` and `--name=value`. A value that stands by itself does not
begin with a dash, unless it is only that. Nothing but options is accepted; two dashes may stand at
the end.
-/

namespace OpenApi.Command

/-- What an option may be given: no value, one value at most once, or one value each time. -/
inductive Arity where
  | flag
  | single
  | repeated
deriving DecidableEq, Inhabited

/-- The options of a command, by name without dashes. -/
abbrev Options := List (String × Arity)

/-- The options that were given, in order; a flag has an empty value. -/
abbrev Given := List (String × String)

/-- Whether an argument may be the value of the option before it. -/
def isValue (argument : String) : Bool := argument == "-" || !Text.startsWith "-" argument

/-- The name of an option and the value after an equals sign, if there is one. -/
def splitOption (text : String) : String × Option String :=
  match Text.cut? '=' text.toList with
  | some (name, value) => (String.ofList name, some (String.ofList value))
  | none => (text, none)

namespace Options

/-- Whether an option may be given once more. -/
def allows (given : Given) (name : String) (arity : Arity) : Bool :=
  arity == .repeated || (given.lookup name).isNone

/-- Reads arguments after some that were given, unless one of them is not accepted. -/
def readAfter (options : Options) (given : Given) : List String → Option Given
  | [] => some given
  | ["--"] => some given
  | argument :: rest =>
    match Text.after? "--" argument with
    | none => none
    | some text =>
      let (name, attached) := splitOption text
      match options.lookup name with
      | none => none
      | some arity =>
        if !allows given name arity then none
        else
          match arity, attached, rest with
          | .flag, none, rest => readAfter options (given ++ [(name, "")]) rest
          | .flag, some _, _ => none
          | _, some value, rest => readAfter options (given ++ [(name, value)]) rest
          | _, none, value :: rest =>
            if isValue value then readAfter options (given ++ [(name, value)]) rest else none
          | _, none, [] => none

/-- Reads arguments, unless one of them is not accepted. -/
def read? (options : Options) (arguments : List String) : Option Given :=
  options.readAfter [] arguments

end Options

namespace Given

/-- The value of an option. -/
def value? (given : Given) (name : String) : Option String := given.lookup name

/-- The values of an option that may be repeated. -/
def values (given : Given) (name : String) : List String :=
  given.filterMap fun (n, value) => if n = name then some value else none

/-- Whether a flag was given. -/
def has (given : Given) (name : String) : Bool := (given.lookup name).isSome

/-- A value that may be left out and is read if it is given. -/
def optional? (given : Given) (name : String) (read : String → Option α) : Option (Option α) :=
  match given.value? name with
  | none => some none
  | some value => (read value).map some

end Given

/-- The boolean of a word. -/
def boolOfWord? (word : String) : Option Bool :=
  if word = "true" then some true else if word = "false" then some false else none

/-- A path, which is not empty. -/
def path? (text : String) : Option String := if text.isEmpty then none else some text

end OpenApi.Command
