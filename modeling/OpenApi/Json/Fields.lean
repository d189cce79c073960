import OpenApi.Json.Value
import OpenApi.Text

/-!
# Fields of objects

Reading an object member by member name, with what is not a named field left over, and writing
fields that may be absent. A field is required, or may be absent, or may also be null. Where nothing
can be left over, an array of the fields is read as well.
-/

namespace OpenApi.Json

/-- The members of an object. -/
abbrev Members := List (String × Value)

namespace Members

/-! ## Reading -/

/-- A field that must be there. -/
def required (ms : Members) (key : String) (read : Value → Option α) : Option α :=
  (Entries.get? key ms).bind read

/-- A field that may be absent or null. -/
def optional (ms : Members) (key : String) (read : Value → Option α) : Option (Option α) :=
  match Entries.get? key ms with
  | none | some .null => some none
  | some v => (read v).map some

/-- A field that may be absent and is not null. -/
def withDefault (ms : Members) (key : String) (default : α) (read : Value → Option α) : Option α :=
  match Entries.get? key ms with
  | none => some default
  | some v => read v

/-- The members under other keys than the given ones. -/
def others (ms : Members) (known : List String) : OrderedMap Value :=
  .ofList (ms.filter fun m => !known.contains m.1)

/-! ## Writing -/

/-- A field that is always written. -/
def field (key : String) (v : Value) : Members := [(key, v)]

/-- A field that is written if it is set. -/
def fieldIfSet (key : String) (write : α → Value) : Option α → Members
  | some a => [(key, write a)]
  | none => []

/-- A list that is written unless it is empty. -/
def fieldIfAny (key : String) (write : α → Value) : List α → Members
  | [] => []
  | items => [(key, .array (items.map write))]

/-- A map that is written unless it is empty. -/
def fieldIfEntries (key : String) (write : α → Value) (m : OrderedMap α) : Members :=
  if m.isEmpty then [] else [(key, .object (m.entries.map fun e => (e.1, write e.2)))]

end Members

namespace Value

/-! ## Containers -/

/-- The value itself. -/
def self? (v : Value) : Option Value := some v

/-- The items of an array, each read the same way. -/
def list? (read : Value → Option α) (v : Value) : Option (List α) :=
  v.items?.bind fun items => items.mapM read

/-- The members of an object, each read the same way. -/
def map? (read : Value → Option α) (v : Value) : Option (OrderedMap α) :=
  v.members?.bind fun ms =>
    (ms.mapM fun m => (read m.2).map fun a => (m.1, a)).map OrderedMap.ofList

/-- The members that are read as the fields of a record: those of an object, or the items of an
array in the order of the fields, of which the last ones may be missing. -/
def record? (fields : List String) : Value → Option Members
  | .object ms => some ms
  | .array items => if items.length ≤ fields.length then some (fields.zip items) else none
  | _ => none

/-- The word of an enumeration: a string, or an object with null under the word. -/
def word? (ofWord? : String → Option α) : Value → Option α
  | .string word => ofWord? word
  | .object [(word, .null)] => ofWord? word
  | _ => none

/-- The object of some fields and the entries of a map. -/
def ofFields (fields : List Members) (rest : OrderedMap Value) : Value :=
  .ofMap (.ofList (fields.flatten ++ rest.entries))

/-- The object of the entries of a map. -/
def ofMapWith (write : α → Value) (m : OrderedMap α) : Value :=
  .object (m.entries.map fun e => (e.1, write e.2))

end Value

end OpenApi.Json
