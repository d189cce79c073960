import OpenApi.OrderedMap

/-!
# Parameter locations and styles

Where a parameter travels, how its value is laid out, and which styles a location has.
-/

namespace OpenApi.Parameter

/-! ## Locations -/

/-- Where a parameter travels; `querystring` is the whole query. -/
inductive Location where
  | path
  | query
  | querystring
  | header
  | cookie
deriving DecidableEq, Inhabited

/-- Every location. -/
def Location.all : List Location := [.path, .query, .querystring, .header, .cookie]

/-- The value of `in` for a location. -/
def Location.word : Location → String
  | .path => "path"
  | .query => "query"
  | .querystring => "querystring"
  | .header => "header"
  | .cookie => "cookie"

/-- The location of a value of `in`. -/
def Location.ofWord? (text : String) : Option Location := all.find? (·.word == text)

/-! ## Styles -/

/-- How a value is laid out. -/
inductive Style where
  | matrix
  | label
  | form
  | simple
  | spaceDelimited
  | pipeDelimited
  | deepObject
  | cookie
deriving DecidableEq, Inhabited

/-- Every style. -/
def Style.all : List Style :=
  [.simple, .form, .matrix, .label, .spaceDelimited, .pipeDelimited, .deepObject, .cookie]

/-- The value of `style` for a style. -/
def Style.word : Style → String
  | .matrix => "matrix"
  | .label => "label"
  | .form => "form"
  | .simple => "simple"
  | .spaceDelimited => "spaceDelimited"
  | .pipeDelimited => "pipeDelimited"
  | .deepObject => "deepObject"
  | .cookie => "cookie"

/-- The style of a value of `style`. -/
def Style.ofWord? (text : String) : Option Style := all.find? (·.word == text)

/-- The `explode` of a parameter that declares none. -/
def Style.defaultExplode : Style → Bool
  | .form | .cookie => true
  | _ => false

/-- Whether members are joined by a delimiter that does not allow `explode`. -/
def Style.isDelimited : Style → Bool
  | .spaceDelimited | .pipeDelimited => true
  | _ => false

/-! ## Styles of a location -/

/-- The style of a parameter that declares none. -/
def Location.defaultStyle : Location → Style
  | .path | .header => .simple
  | .query | .querystring | .cookie => .form

/-- The styles that a parameter may declare. -/
def Location.styles : Location → List Style
  | .path => [.matrix, .label, .simple]
  | .query | .querystring => [.form, .spaceDelimited, .pipeDelimited, .deepObject]
  | .header => [.simple]
  | .cookie => [.form, .cookie]

theorem Location.ofWord?_word (l : Location) : ofWord? l.word = some l := by
  cases l <;> decide

theorem Style.ofWord?_word (s : Style) : ofWord? s.word = some s := by
  cases s <;> decide

theorem Location.defaultStyle_mem_styles (l : Location) : l.defaultStyle ∈ l.styles := by
  cases l <;> decide

end OpenApi.Parameter
