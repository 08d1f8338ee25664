import ChatPreview.Decimal.Shortest
import ChatPreview.Halt
import ChatPreview.Text.Quoted
/-!
What a configuration says: tables of items, in the order of their keys' first appearance.
-/
namespace ChatPreview.Toml
open Text

inductive Item where
  | boolean (value : Bool)
  | integer (value : Int)
  | real (value : Binary64)
  | string (value : List Char)
  | array (items : List Item)
  | table (members : List (List Char × Item))
  /-- A date or a time: what it is shown as alone, and inside an array or a table. -/
  | other (text shown : String)
  deriving Repr, Inhabited

abbrev Table := List (List Char × Item)

def Table.put (t : Table) (key : List Char) (item : Item) : Table :=
  match t with
  | [] => [(key, item)]
  | (k, v) :: rest => if k = key then (k, item) :: rest else (k, v) :: Table.put rest key item

inductive Error where
  | malformed (message : String)
  | halt (why : Halt)
  deriving DecidableEq, Repr

namespace Item

/-- An item as it is shown inside others, with so many levels of nesting left, itself included. -/
def shown : Nat → Item → Except Halt String
  | 0, _ => .error .tooDeep
  | levels + 1, item =>
    match item with
    | boolean b => .ok (if b then "True" else "False")
    | integer n => if n.natAbs < 10 ^ maxDigits then .ok (toString n) else .error .longNumber
    | real x => .ok x.text
    | string s => .ok (quotedChars s)
    | array items => do
      let parts ← items.mapM (shown levels)
      return "[" ++ String.intercalate ", " parts ++ "]"
    | table members => do
      let parts ← members.mapM fun (key, item) => do
        return quotedChars key ++ ": " ++ (← shown levels item)
      return "\x7b" ++ String.intercalate ", " parts ++ "\x7d"
    | other _ shown => .ok shown

def text (levels : Nat) : Item → Except Halt (List Char)
  | string s => .ok s
  | other text _ => .ok text.toList
  | item => String.toList <$> shown levels item

end Item
end ChatPreview.Toml
