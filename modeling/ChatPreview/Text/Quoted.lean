import ChatPreview.Text.CodePoint
import ChatPreview.Text.Hex
import ChatPreview.Text.Printable
/-!
Text as messages show it: between single quotes, or double ones when that saves escaping, with
everything that does not print escaped.
-/
namespace ChatPreview.Text

def numericEscape (n : Nat) : List Char :=
  if n < 0x100 then '\\' :: 'x' :: hex 2 n
  else if n < 0x10000 then '\\' :: 'u' :: hex 4 n
  else '\\' :: 'U' :: hex 8 n

def escape (quote : Char) : CodePoint → List Char
  | .surrogate n => numericEscape n
  | .scalar c =>
    if c = '\\' ∨ c = quote then ['\\', c]
    else if c = '\n' then ['\\', 'n']
    else if c = '\r' then ['\\', 'r']
    else if c = '\t' then ['\\', 't']
    else if isPrintable c then [c]
    else numericEscape c.toNat

def quoteFor (t : Text) : Char :=
  if .scalar '\'' ∈ t ∧ .scalar '"' ∉ t then '"' else '\''

def quoted (t : Text) : String :=
  let quote := quoteFor t
  String.ofList (quote :: t.flatMap (escape quote) ++ [quote])

def quotedChars (s : List Char) : String := quoted (ofChars s)

end ChatPreview.Text
