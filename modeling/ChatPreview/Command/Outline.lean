import ChatPreview.Command.Basic

namespace ChatPreview
open Text

def indent (depth : Nat) : String := String.join (List.replicate depth "  ")

namespace Node

def title : Kind → String
  | .literal => "Literal"
  | .string => "StringLiteral"
  | .selector => "Selector"
  | .object => "Object"
  | .array => "Array"
  | .comment => "Comment"

mutual

def outline (depth : Nat) : Node → List String
  | ⟨.object, _, position, children⟩ =>
    s!"{indent depth}Object @{position}" :: outlineEntries (depth + 1) children
  | ⟨.array, _, position, children⟩ =>
    s!"{indent depth}Array @{position}" :: outlineItems (depth + 1) children
  | ⟨kind, content, position, _⟩ =>
    [s!"{indent depth}{title kind}({quotedChars content}) @{position}"]

def outlineItems (depth : Nat) : List Node → List String
  | [] => []
  | n :: rest => outline depth n ++ outlineItems depth rest

def outlineEntries (depth : Nat) : List Node → List String
  | key :: value :: rest =>
    s!"{indent depth}Key({quotedChars key.content})" ::
      (outline (depth + 1) value ++ outlineEntries depth rest)
  | _ => []

end
end Node

namespace Command

def outline (c : Command) : List String :=
  if c.isBlank then [s!"Command @{c.position} (blank)"]
  else
    let mark := if c.isMacro then " macro" else ""
    [s!"Command @{c.position}{mark} {quotedChars c.raw}"] ++
      Node.outlineItems 1 c.nodes ++
      (c.error.map fun e => s!"{indent 1}! stopped: {e.text}").toList

end Command

def unlines (lines : List String) : String := String.join (lines.map (· ++ "\n"))

def outline (commands : List Command) : String := unlines (commands.flatMap Command.outline)

end ChatPreview
