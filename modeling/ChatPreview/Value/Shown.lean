import ChatPreview.Decimal.Shortest
import ChatPreview.Text.Quoted
import ChatPreview.Value.Basic

namespace ChatPreview.Value
open Text

mutual

def shown : Value → String
  | null => "None"
  | boolean b => if b then "True" else "False"
  | integer n => toString n
  | real x => x.text
  | string t => quoted t
  | array items => "[" ++ String.intercalate ", " (shownItems items) ++ "]"
  | object members => "\x7b" ++ String.intercalate ", " (shownMembers members) ++ "\x7d"

def shownItems : List Value → List String
  | [] => []
  | v :: rest => shown v :: shownItems rest

def shownMembers : List (Text × Value) → List String
  | [] => []
  | (key, v) :: rest => (quoted key ++ ": " ++ shown v) :: shownMembers rest

end

end ChatPreview.Value
