import JsonProjection.Number.Numeral

/-!
JSON values.

An object is the list of its members in order; its keys are distinct as long as members are put in
with `Members.put`, which keeps a key at its first place and gives it its last value.
-/

namespace JsonProjection.Json

inductive Value where
  | null
  | bool (value : Bool)
  | integer (value : Int)
  | float (value : Binary64)
  | string (text : String)
  | array (items : List Value)
  | object (members : List (String × Value))
  deriving Repr, Inhabited

def Value.ofNumeral : Numeral → Value
  | .unsigned value => .integer value
  | .signed value => .integer value
  | .float value => .float value

/-- Gives a key a value: at its old place if it has one, else behind all others. -/
def Members.put (members : List (String × Value)) (key : String) (value : Value) :
    List (String × Value) :=
  match members with
  | [] => [(key, value)]
  | (other, old) :: rest =>
    if other = key then (other, value) :: rest else (other, old) :: Members.put rest key value

end JsonProjection.Json
