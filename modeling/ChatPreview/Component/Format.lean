import ChatPreview.Decimal.Digits
import ChatPreview.Text.CodePoint

namespace ChatPreview.Format

inductive Piece where
  | char (p : CodePoint)
  /-- Takes the next argument in order. -/
  | next
  /-- Takes the argument that its digits name, counting from one. -/
  | nth (digits : List Char)
  deriving DecidableEq, Repr

def leadingDigits : Text → List Char
  | .scalar c :: rest => if c.isDigit then c :: leadingDigits rest else []
  | _ => []

def numbered? (t : Text) : Option (List Char × Text) :=
  let digits := leadingDigits t
  match digits, t.drop digits.length with
  | d :: _, .scalar '$' :: .scalar 's' :: rest => if d = '0' then none else some (digits, rest)
  | _, _ => none

theorem numbered?_length {t rest : Text} {digits : List Char}
    (h : numbered? t = some (digits, rest)) : rest.length < t.length := by
  unfold numbered? at h
  simp only at h
  split at h
  · rename_i d _ tail _ shape
    split at h
    · cases h
    · cases h
      have := congrArg List.length shape
      simp only [List.length_drop, List.length_cons] at this
      omega
  · cases h

def marker? : Text → Option (Piece × Text)
  | [] => none
  | p :: rest =>
    if p = .scalar 's' then some (.next, rest)
    else (numbered? (p :: rest)).map fun (digits, rest) => (.nth digits, rest)

theorem marker?_length {t rest : Text} {piece : Piece} (h : marker? t = some (piece, rest)) :
    rest.length < t.length := by
  unfold marker? at h
  split at h
  · cases h
  · split at h
    · cases h
      simp
    · obtain ⟨⟨digits, rest⟩, found, same⟩ := Option.map_eq_some_iff.1 h
      cases same
      exact numbered?_length found

def pieces : Text → List Piece
  | [] => []
  | p :: rest =>
    if p = .scalar '%' then
      match _h : marker? rest with
      | some (piece, rest) => piece :: pieces rest
      | none => .char p :: pieces rest
    else .char p :: pieces rest
termination_by t => t.length
decreasing_by
  · have shorter := marker?_length _h
    simp only [List.length_cons]
    omega
  · simp
  · simp

def marker (n : Nat) : Text := Text.ofString s!"%{n}$s"

def argument (args : List Text) (index : Nat) : Text := args[index]?.getD (marker (index + 1))

/-- Joins the pieces; `next` counts the unnumbered markers before them. -/
def fill (args : List Text) (next : Nat) : List Piece → Except DigitLimit Text
  | [] => .ok []
  | .char p :: rest => do return p :: (← fill args next rest)
  | .next :: rest => do return argument args next ++ (← fill args (next + 1) rest)
  | .nth digits :: rest => do
    let n ← readDigits digits
    return argument args (n - 1) ++ (← fill args next rest)

def apply (format : Text) (args : List Text) : Except DigitLimit Text :=
  fill args 0 (pieces format)

end ChatPreview.Format
