/-!
White space in its two senses: the blanks inside a command line, and the wider class that is
trimmed from the ends of text and separates the words of a template.
-/
namespace ChatPreview.Text

def isBlank (c : Char) : Bool := c == ' ' || c == '\t'

/-- Unicode white space, with the four separator controls U+001C to U+001F. -/
def isSpace (c : Char) : Bool :=
  let n := c.toNat
  (0x9 ≤ n && n ≤ 0xD) || (0x1C ≤ n && n ≤ 0x20) || n == 0x85 || n == 0xA0 || n == 0x1680 ||
    (0x2000 ≤ n && n ≤ 0x200A) || n == 0x2028 || n == 0x2029 || n == 0x202F || n == 0x205F ||
    n == 0x3000

theorem isSpace_of_isBlank {c : Char} (blank : isBlank c) : isSpace c := by
  rw [isBlank, Bool.or_eq_true, beq_iff_eq, beq_iff_eq] at blank
  rcases blank with rfl | rfl <;> rfl

theorem not_isSpace_of_visible {c : Char} (low : 33 ≤ c.toNat) (high : c.toNat < 127) :
    isSpace c = false := by
  apply Bool.eq_false_iff.2
  intro space
  simp only [isSpace, Bool.or_eq_true, Bool.and_eq_true, decide_eq_true_eq, beq_iff_eq] at space
  omega

def dropEndWhile (p : Char → Bool) (s : List Char) : List Char := (s.reverse.dropWhile p).reverse

def trimStart (s : List Char) : List Char := s.dropWhile isSpace
def trimEnd (s : List Char) : List Char := dropEndWhile isSpace s
def trim (s : List Char) : List Char := trimEnd (trimStart s)

theorem dropEndWhile_split (p : Char → Bool) (s : List Char) :
    ∃ trail, s = dropEndWhile p s ++ trail ∧ ∀ x ∈ trail, p x := by
  refine ⟨(s.reverse.takeWhile p).reverse, ?_, ?_⟩
  · rw [dropEndWhile, ← List.reverse_append, List.takeWhile_append_dropWhile, List.reverse_reverse]
  · intro x member
    exact List.all_eq_true.1 List.all_takeWhile x (List.mem_reverse.1 member)

theorem trim_split (s : List Char) :
    ∃ trail, s = s.takeWhile isSpace ++ trim s ++ trail ∧ ∀ x ∈ trail, isSpace x := by
  rcases dropEndWhile_split isSpace (trimStart s) with ⟨trail, split, spaces⟩
  refine ⟨trail, ?_, spaces⟩
  calc
    s = s.takeWhile isSpace ++ trimStart s := (List.takeWhile_append_dropWhile).symm
    _ = s.takeWhile isSpace ++ (trim s ++ trail) := by rw [trim, trimEnd, ← split]
    _ = s.takeWhile isSpace ++ trim s ++ trail := (List.append_assoc _ _ _).symm

def fields : List Char → List (List Char)
  | [] => [[]]
  | c :: s =>
    if isSpace c then [] :: fields s
    else match fields s with
      | [] => [[c]]
      | word :: words => (c :: word) :: words

def words (s : List Char) : List (List Char) := (fields s).filter (!·.isEmpty)

end ChatPreview.Text
