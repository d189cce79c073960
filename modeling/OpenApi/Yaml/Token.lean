import OpenApi.Yaml.Tag

/-!
# Tokens of YAML

What a YAML text is cut into. The collections of block style are opened and closed by tokens of
their own, which stand for changes of indentation.
-/

namespace OpenApi.Yaml

/-- A token. The text of a scalar has its line ends folded and its escapes replaced. -/
inductive Token where
  | directive (directive : Directive)
  | documentStart
  | documentEnd
  | blockSequenceStart
  | blockMappingStart
  | blockEnd
  | flowSequenceStart
  | flowSequenceEnd
  | flowMappingStart
  | flowMappingEnd
  | blockEntry
  | flowEntry
  | key
  | value
  | alias (name : String)
  | anchor (name : String)
  | tag (handle rest : String)
  | scalar (plain : Bool) (text : String)
deriving DecidableEq, Inhabited

end OpenApi.Yaml
