import ChatPreview.Text.Blank
import ChatPreview.Text.Position

namespace ChatPreview.Text

def lineAt (source : List Char) (line : Nat) : List Char :=
  let shown := (displayLines source)[line - 1]?.getD []
  dropEndWhile (· == '\r') (dropEndWhile (· == '\n') shown)

def spaces (n : Nat) : String := String.ofList (List.replicate n ' ')

def excerpt (message : String) (offset : Int) (source : List Char) (file : String) : String :=
  let place := locate source offset
  let number := toString place.line
  let gutter := spaces (number.length + 1)
  let text := String.ofList (lineAt source place.line)
  let pad := spaces (place.column - 1)
  s!"error: {message}\n" ++
  s!"{gutter}--> {file}:{place.line}:{place.column}\n" ++
  s!"{gutter}|\n" ++
  s!"{number} | {text}\n" ++
  s!"{gutter}| {pad}^"

end ChatPreview.Text
