import ChatPreview.Command.Node
import ChatPreview.Text.Quoted

namespace ChatPreview

inductive Pattern where
  /-- Stands for the literal with this text. -/
  | literal (text : List Char)
  /-- Stands for any node of these kinds, and names it. -/
  | argument (name : List Char) (allowed : List Kind)
  deriving DecidableEq, Repr

namespace Pattern

def name? : Pattern → Option (List Char)
  | literal _ => none
  | argument name _ => some name

def fits : Pattern → Node → Bool
  | literal text, n => n.isLiteral text
  | argument _ allowed, n => allowed.contains n.kind

def barred (kinds : List Kind) : List Char :=
  List.intercalate ['|'] (kinds.map (·.name.toList))

def written : Pattern → List Char
  | literal text => text
  | argument name allowed =>
    if allowed = Kind.all then '<' :: name ++ ['>']
    else '<' :: name ++ ':' :: barred allowed ++ ['>']

end Pattern

def messageName : List Char := "message".toList

/-- A template has a pattern, and no name twice. -/
structure Template where
  patterns : List Pattern
  nonempty : patterns ≠ []
  distinct : (patterns.filterMap Pattern.name?).Nodup
  deriving Repr

namespace Template

def written (t : Template) : List Char := List.intercalate [' '] (t.patterns.map Pattern.written)

inductive Fault where
  | invalidArgument (word text : List Char)
  | unknownType (name text : List Char)
  | noPattern
  | repeated (names : List (List Char))
  deriving DecidableEq, Repr

def Fault.message : Fault → String
  | invalidArgument word text =>
    s!"invalid argument pattern {Text.quotedChars word} in template {Text.quotedChars text}"
  | unknownType name text =>
    s!"unknown node type {Text.quotedChars name} in template {Text.quotedChars text}"
  | noPattern => "template must contain at least one pattern"
  | repeated names =>
    "duplicate argument name(s) in template: " ++
      String.intercalate ", " (names.map String.ofList)

end Template
end ChatPreview
