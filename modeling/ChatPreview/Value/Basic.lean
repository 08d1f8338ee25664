import ChatPreview.Decimal.Binary64
import ChatPreview.Text.CodePoint

namespace ChatPreview

/-- The members of an object stand in the order of their keys' first appearance. -/
inductive Value where
  | null
  | boolean (value : Bool)
  | integer (value : Int)
  | real (value : Binary64)
  | string (value : Text)
  | array (items : List Value)
  | object (members : List (Text × Value))
  deriving Repr, Inhabited

abbrev Members := List (Text × Value)

namespace Members

def get? (members : Members) (key : Text) : Option Value := List.lookup key members

def put (key : Text) (value : Value) : Members → Members
  | [] => [(key, value)]
  | (k, v) :: rest => if k = key then (k, value) :: rest else (k, v) :: put key value rest

end Members

def Value.type : Value → String
  | null => "null"
  | boolean _ => "boolean"
  | integer _ => "number"
  | real _ => "number"
  | string _ => "string"
  | array _ => "array"
  | object _ => "object"

namespace Value

mutual

/-- How many values stand inside one another, from this one on. -/
def levels : Value → Nat
  | array items => itemLevels items + 1
  | object members => memberLevels members + 1
  | _ => 1

def itemLevels : List Value → Nat
  | [] => 0
  | v :: rest => max (levels v) (itemLevels rest)

def memberLevels : List (Text × Value) → Nat
  | [] => 0
  | (_, v) :: rest => max (levels v) (memberLevels rest)

end

end Value

end ChatPreview
