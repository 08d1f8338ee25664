/-!
Places in a source text. Only a line feed ends a line here; a display breaks lines at more
characters.
-/
namespace ChatPreview

/-- Line and column count from one, the offset from zero. -/
structure Position where
  line : Nat
  column : Nat
  offset : Nat
  deriving DecidableEq, Repr

/-- An offset outside the source counts as the nearer end of it. -/
def locate (source : List Char) (offset : Int) : Position :=
  let before := source.take offset.toNat
  ⟨before.count '\n' + 1, (before.reverse.takeWhile (· ≠ '\n')).length + 1, before.length⟩

namespace Text

def breaksLine (c : Char) : Bool :=
  ['\n', '\r', '\x0b', '\x0c', '\x1c', '\x1d', '\x1e', '\u0085', '\u2028', '\u2029'].contains c

def displayLines : List Char → List (List Char)
  | [] => []
  | '\r' :: '\n' :: s => ['\r', '\n'] :: displayLines s
  | c :: s =>
    if breaksLine c then [c] :: displayLines s
    else match displayLines s with
      | [] => [[c]]
      | line :: lines => (c :: line) :: lines

end Text
end ChatPreview
