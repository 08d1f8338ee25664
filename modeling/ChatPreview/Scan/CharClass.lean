namespace ChatPreview

/-- `outside` turns the class around: its members are the characters in none of the ranges. -/
structure CharClass where
  written : String
  outside : Bool
  ranges : List (Char × Char)
  deriving Repr

namespace CharClass

def has (k : CharClass) (c : Char) : Bool :=
  (k.ranges.any fun (first, last) => first ≤ c && c ≤ last) != k.outside

structure Member where
  char : Char
  joins : Bool

def unescape (c : Char) : Char :=
  if c = 't' then '\t'
  else if c = 'n' then '\n'
  else if c = 'r' then '\r'
  else if c = 'f' then '\x0c'
  else if c = 'v' then '\x0b'
  else if c = 'a' then '\x07'
  else if c = 'b' then '\x08'
  else c

def members : List Char → List Member
  | [] => []
  | ['\\'] => []
  | '\\' :: c :: s => ⟨unescape c, false⟩ :: members s
  | c :: s => ⟨c, c == '-'⟩ :: members s

/-- A hyphen between two members makes a range, even if one of them is a hyphen; elsewhere it is
a member. -/
def rangesOf : List Member → List (Char × Char)
  | first :: ⟨_, true⟩ :: last :: rest => (first.char, last.char) :: rangesOf rest
  | m :: rest => (m.char, m.char) :: rangesOf rest
  | [] => []

def read (written : String) : CharClass :=
  match (written.toList.drop 1).dropLast with
  | '^' :: s => ⟨written, true, rangesOf (members s)⟩
  | s => ⟨written, false, rangesOf (members s)⟩

end CharClass
end ChatPreview
