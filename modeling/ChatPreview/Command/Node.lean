import ChatPreview.Command.Continuation

namespace ChatPreview

inductive Kind where
  | literal
  | string
  | selector
  | object
  | array
  | comment
  deriving DecidableEq, Repr

namespace Kind

def all : List Kind := [array, comment, literal, object, selector, string]

def name : Kind → String
  | literal => "literal"
  | string => "string"
  | selector => "selector"
  | object => "object"
  | array => "array"
  | comment => "comment"

def ofName? (name : List Char) : Option Kind := all.find? (·.name.toList == name)

end Kind

/-- A node with its text, continuations taken out, and the offset it starts at. Objects and arrays
alone have children; those of an object are a key, its value, the next key, and so on. -/
structure Node where
  kind : Kind
  content : List Char
  position : Nat
  children : List Node
  deriving Repr

namespace Node

def isLiteral (n : Node) (text : List Char) : Bool := n.kind == .literal && n.content == text

def between (kind : Kind) (first last : Cursor) (children : List Node) : Node :=
  ⟨kind, joinLines (first.upTo last), first.pos, children⟩

def pairs : List Node → List (Node × Node)
  | key :: value :: rest => (key, value) :: pairs rest
  | _ => []

end Node
end ChatPreview
