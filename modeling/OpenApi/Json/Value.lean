import OpenApi.Json.Number
import OpenApi.OrderedMap

/-!
# JSON values

The values of JSON, with the members of an object in order. `Value.DistinctKeys` says that no
object inside a value has a key twice; the reader produces only such values.
-/

namespace OpenApi.Json

/-- A JSON value. -/
inductive Value where
  | null
  | bool (value : Bool)
  | number (value : Number)
  | string (value : String)
  | array (items : List Value)
  | object (members : List (String × Value))
deriving Inhabited

namespace Value

/-! ## Kinds -/

/-- The kind of a value, as named in messages about unexpected values. -/
def kind : Value → String
  | .null => "null"
  | .bool _ => "boolean"
  | .number _ => "number"
  | .string _ => "string"
  | .array _ => "array"
  | .object _ => "object"

/-- The text of a string value. -/
def string? : Value → Option String
  | .string s => some s
  | _ => none

/-- The truth value of a boolean value. -/
def bool? : Value → Option Bool
  | .bool b => some b
  | _ => none

/-- The number of a number value. -/
def number? : Value → Option Number
  | .number n => some n
  | _ => none

/-- The natural below `2 ^ 64` that a value is. -/
def nat? : Value → Option Nat
  | .number n => n.toNat?
  | _ => none

/-- The items of an array value. -/
def items? : Value → Option (List Value)
  | .array items => some items
  | _ => none

/-- The members of an object value. -/
def members? : Value → Option (List (String × Value))
  | .object members => some members
  | _ => none

/-- The texts of an array of strings. -/
def strings? : Value → Option (List String)
  | .array items => items.mapM string?
  | _ => none

/-- The member of an object value under a key. -/
def member? (key : String) : Value → Option Value
  | .object members => Entries.get? key members
  | _ => none

def isNull : Value → Bool
  | .null => true
  | _ => false

/-! ## Constructors -/

/-- The object with the entries of an ordered map. -/
def ofMap (m : OrderedMap Value) : Value := .object m.entries

/-- The array of strings. -/
def ofStrings (texts : List String) : Value := .array (texts.map .string)

/-- The integer value of a natural. -/
def ofNat (n : Nat) : Value := .number (.integer n)

/-! ## Distinct keys -/

mutual

/-- No object inside the value has a key twice. -/
def DistinctKeys : Value → Prop
  | .array items => DistinctKeysList items
  | .object members => (members.map Prod.fst).Nodup ∧ DistinctKeysMembers members
  | _ => True

def DistinctKeysList : List Value → Prop
  | [] => True
  | v :: vs => DistinctKeys v ∧ DistinctKeysList vs

def DistinctKeysMembers : List (String × Value) → Prop
  | [] => True
  | (_, v) :: ms => DistinctKeys v ∧ DistinctKeysMembers ms

end

end Value

end OpenApi.Json
