import RouteAtlas.Json.Value

/-!
# Records in JSON

Reading values with fixed fields. A field may be missing or null where it is optional; a field that
is written twice is an error. Members are taken as they are written.
-/

namespace RouteAtlas.Json

def stringList? (j : Json) : Option (List String) := j.array?.bind fun items => items.mapM string?

variable (read : Json → Option α)

/-- A value that may be missing or null. -/
def optional? : Option Json → Option (Option α)
  | none | some .null => some none
  | some j => (read j).map some

/-- The value of a key that is written at most once; `none` if it is written twice. -/
def onlyMember? (key : String) (members : List (String × Json)) : Option (Option Json) :=
  match members.filter (·.1 = key) with
  | [] => some none
  | [(_, value)] => some (some value)
  | _ => none

/-- The fields of a record: the members of an object, or the items of an array of exactly as many.
-/
def fields? (keys : List String) : Json → Option (List (Option Json))
  | .object members => keys.mapM (onlyMember? · members)
  | .array items => if items.length = keys.length then some (items.map some) else none
  | _ => none

def required? (key : String) (members : List (String × Json)) : Option α :=
  ((onlyMember? key members).join).bind read

/-- A member that may be missing or null. -/
def member? (key : String) (members : List (String × Json)) : Option (Option α) :=
  (onlyMember? key members).bind (optional? read)

end RouteAtlas.Json
