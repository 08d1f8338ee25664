/-!
Decoded text. An escape may name half of a surrogate pair with no other half beside it, so decoded
text is a list of code points, where source text is a list of characters.
-/
namespace ChatPreview

inductive CodePoint where
  | scalar (char : Char)
  | surrogate (value : Nat)
  deriving DecidableEq, Repr, Inhabited

namespace CodePoint

def isHigh (n : Nat) : Bool := 0xD800 ≤ n && n ≤ 0xDBFF
def isLow (n : Nat) : Bool := 0xDC00 ≤ n && n ≤ 0xDFFF

def ofNat (n : Nat) : CodePoint :=
  if isHigh n || isLow n then .surrogate n else .scalar (Char.ofNat n)

def join (high low : Nat) : CodePoint :=
  ofNat (0x10000 + (high - 0xD800) * 0x400 + (low - 0xDC00))

def char? : CodePoint → Option Char
  | scalar c => some c
  | surrogate _ => none

end CodePoint

abbrev Text := List CodePoint

namespace Text

def ofChars (s : List Char) : Text := s.map .scalar
def ofString (s : String) : Text := ofChars s.toList

def chars? (t : Text) : Option (List Char) := t.mapM CodePoint.char?

def unlines (lines : List Text) : Text := lines.flatMap (· ++ [.scalar '\n'])

end Text
end ChatPreview
