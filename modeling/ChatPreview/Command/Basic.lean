import ChatPreview.Command.Token

namespace ChatPreview
open Text Scan

/-- The command of a logical line, which starts at the line's first character that is not a blank.
Its text and span are trimmed; with an error, its nodes are those before the text that could not
be read. -/
structure Command where
  raw : List Char
  nodes : List Node
  start : Nat
  position : Nat
  stop : Nat
  isMacro : Bool
  error : Option Failure
  deriving Repr

namespace Command

def isBlank (c : Command) : Bool := c.raw.isEmpty

def skipLine (c : Cursor) : Cursor :=
  match _h : Continuation.rest? c.rest with
  | some rest => skipLine (c.leave rest)
  | none => if c.atLineEnd then c else skipLine (c.advance 1)
termination_by c.rest.length
decreasing_by
  · exact Continuation.rest?_length _h
  · rename_i inside
    have : c.rest ≠ [] := by simp_all [Cursor.atLineEnd, Cursor.atEnd]
    have := List.length_pos_iff.2 this
    simp only [Cursor.advance, List.length_drop]
    omega

theorem skipLine_of_some {c : Cursor} {rest : List Char}
    (found : Continuation.rest? c.rest = some rest) : skipLine c = skipLine (c.leave rest) := by
  rw [skipLine, found]

theorem skipLine_of_none {c : Cursor} (free : Continuation.rest? c.rest = none)
    (inside : ¬c.atLineEnd) : skipLine c = skipLine (c.advance 1) := by
  rw [skipLine, free]
  simp only [inside, Bool.false_eq_true, if_false]

theorem skipLine_spec (c : Cursor) : c.Reaches (skipLine c) ∧ (skipLine c).atLineEnd := by
  fun_induction skipLine c with
  | case1 c rest found ih =>
      exact ⟨(c.reaches_leave (Continuation.rest?_suffix found)).trans ih.1, ih.2⟩
  | case2 c _ ended => exact ⟨.refl c, ended⟩
  | case3 c _ inside ih =>
      have : c.rest ≠ [] := by simp_all [Cursor.atLineEnd, Cursor.atEnd]
      have := List.length_pos_iff.2 this
      exact ⟨(c.reaches_advance (by omega)).trans ih.1, ih.2⟩

/-- The nodes of a command, up to the end of its line or the first text that is none, and the end of
the line. -/
structure Body where
  nodes : List Node
  error : Option Failure
  next : Cursor

def readNodes (limit : Int) (c : Cursor) : Body :=
  let c₁ := Token.skipSpace c
  if c₁.atLineEnd then ⟨[], none, c₁⟩
  else match _h : Token.top limit c₁ with
    | .fail e c₂ => ⟨[], some e, skipLine c₂⟩
    | .ok n c₂ =>
      let body := readNodes limit c₂
      { body with nodes := n :: body.nodes }
termination_by c.rest.length
decreasing_by
  have space : c₁.rest.length ≤ c.rest.length := (Token.reaches_skipSpace c).length_le
  have ⟨ahead, further⟩ := Token.consumes_top limit _h
  have := ahead.length_add
  omega

section
variable {limit : Int} {c d : Cursor}

theorem readNodes_of_end (ended : (Token.skipSpace c).atLineEnd) :
    readNodes limit c = ⟨[], none, Token.skipSpace c⟩ := by
  rw [readNodes]
  simp only [ended, if_true]

theorem readNodes_of_fail {e : Failure} (inside : ¬(Token.skipSpace c).atLineEnd)
    (failed : Token.top limit (Token.skipSpace c) = .fail e d) :
    readNodes limit c = ⟨[], some e, skipLine d⟩ := by
  rw [readNodes]
  simp only [inside, Bool.false_eq_true, if_false]
  split
  · rename_i found
    rw [failed] at found
    cases found
    rfl
  · rename_i found
    rw [failed] at found
    cases found

theorem readNodes_of_ok {n : Node} (inside : ¬(Token.skipSpace c).atLineEnd)
    (read : Token.top limit (Token.skipSpace c) = .ok n d) :
    readNodes limit c =
      { readNodes limit d with nodes := n :: (readNodes limit d).nodes } := by
  rw [readNodes]
  simp only [inside, Bool.false_eq_true, if_false]
  split
  · rename_i found
    rw [read] at found
    cases found
  · rename_i found
    rw [read] at found
    cases found
    rfl

end

theorem readNodes_spec (limit : Int) (c : Cursor) :
    c.Reaches (readNodes limit c).next ∧ (readNodes limit c).next.atLineEnd := by
  fun_induction readNodes limit c with
  | case1 c c₁ ended => exact ⟨Token.reaches_skipSpace c, ended⟩
  | case2 c c₁ _ e c₂ failed =>
      obtain ⟨_, rfl⟩ := Token.top_fail failed
      have rest := skipLine_spec c₁
      exact ⟨(Token.reaches_skipSpace c).trans rest.1, rest.2⟩
  | case3 c c₁ _ n c₂ read body ih =>
      have node := (Token.consumes_top limit read).1
      exact ⟨((Token.reaches_skipSpace c).trans node).trans ih.1, ih.2⟩

def pastNewline (c : Cursor) : Cursor :=
  match afterNewline? c.rest with
  | some rest => c.leave rest
  | none => c

def readComment (c : Cursor) : Command × Cursor :=
  let line := c.skipWhile (· != '\n')
  let text := dropEndWhile (· == '\r') (c.upTo line)
  ({ raw := text, nodes := [⟨.comment, text, c.pos, []⟩], start := c.pos, position := c.pos,
     stop := c.pos + text.length, isMacro := false, error := none }, pastNewline line)

def pastDollar (c : Cursor) : Cursor := if c.rest.head? = some '$' then c.advance 1 else c

theorem reaches_pastDollar (c : Cursor) : c.Reaches (pastDollar c) := by
  rw [pastDollar]
  split
  · rename_i dollar
    apply c.reaches_advance
    apply List.length_pos_iff.2
    rintro empty
    rw [empty] at dollar
    cases dollar
  · exact .refl c

def readLine (limit : Int) (c : Cursor) : Command × Cursor :=
  let body := readNodes limit (pastDollar c)
  let text := c.upTo body.next
  let raw := trim text
  let position := if raw.isEmpty then c.pos else c.pos + (text.takeWhile isSpace).length
  ({ raw, nodes := body.nodes, start := c.pos, position, stop := position + raw.length,
     isMacro := c.rest.head? = some '$', error := body.error }, pastNewline body.next)

def read (limit : Int) (c : Cursor) : Command × Cursor :=
  let first := c.skipWhile Text.isBlank
  if first.rest.head? = some '#' then readComment first else readLine limit first

theorem pastNewline_shorter {c d : Cursor} (ahead : c.Reaches d) (ended : d.atLineEnd)
    (inside : c.rest ≠ []) : (pastNewline d).rest.length < c.rest.length := by
  have shorter := ahead.length_le
  have := List.length_pos_iff.2 inside
  unfold pastNewline
  split
  · rename_i rest found
    exact Nat.lt_of_lt_of_le (Continuation.afterNewline?_length found) shorter
  · rename_i none
    have last : d.rest = [] := by simpa [Cursor.atLineEnd, atNewline, none, Cursor.atEnd] using ended
    rw [last]
    exact this

theorem readComment_shorter {c d : Cursor} (ahead : c.Reaches d) (inside : c.rest ≠ []) :
    (readComment d).2.rest.length < c.rest.length := by
  have line := d.reaches_skipWhile (· != '\n')
  refine pastNewline_shorter (ahead.trans line) ?_ inside
  have stop := List.head?_dropWhile_not (· != '\n') d.rest
  unfold Cursor.atLineEnd atNewline Cursor.atEnd
  rw [Cursor.skipWhile_rest]
  cases rest : d.rest.dropWhile (· != '\n') with
  | nil => rfl
  | cons x s =>
      have newline : x = '\n' := by simpa [rest] using stop
      rw [newline]
      rfl

theorem readLine_shorter (limit : Int) {c d : Cursor} (ahead : c.Reaches d)
    (inside : c.rest ≠ []) : (readLine limit d).2.rest.length < c.rest.length := by
  have body := readNodes_spec limit (pastDollar d)
  exact pastNewline_shorter ((ahead.trans (reaches_pastDollar d)).trans body.1) body.2 inside

theorem read_shorter (limit : Int) {c : Cursor} (inside : c.rest ≠ []) :
    (read limit c).2.rest.length < c.rest.length := by
  have blanks := c.reaches_skipWhile Text.isBlank
  unfold read
  simp only
  split
  · exact readComment_shorter blanks inside
  · exact readLine_shorter limit blanks inside

end Command

def nestingLimit : Int := 64

def commandsFrom (limit : Int) (c : Cursor) : List Command :=
  if _h : c.rest = [] then []
  else
    let line := Command.read limit c
    line.1 :: commandsFrom limit line.2
termination_by c.rest.length
decreasing_by exact Command.read_shorter limit _h

/-- The commands of a document. Below zero a limit allows no nesting, as zero does. -/
def commandsWithin (limit : Int) (source : List Char) : List Command :=
  commandsFrom limit (.start source)

def commands (source : List Char) : List Command := commandsWithin nestingLimit source

end ChatPreview
