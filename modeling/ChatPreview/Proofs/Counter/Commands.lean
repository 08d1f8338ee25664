import ChatPreview.Proofs.Counter.Token
import ChatPreview.Proofs.Line.Commands

namespace ChatPreview.Routine
open Text Scan Token

def skipLine : Nat → Routine Unit
  | 0 => stop
  | rounds + 1 => do
    let c ← here
    if c.atEnd then return ()
    else if Continuation.starts c.rest then
      scan continuation
      skipLine rounds
    else if atNewline c.rest then return ()
    else
      let _ ← scan next
      skipLine rounds

def readNodes (limit : Int) (each : Nat) : Nat → Routine (List Node × Option Failure)
  | 0 => stop
  | rounds + 1 => do
    let found ← caught do
      scan space
      if (← here).atLineEnd then return none
      return some (← top limit each)
    match found with
    | .ok none => return ([], none)
    | .ok (some n) =>
      let (nodes, error) ← readNodes limit each rounds
      return (n :: nodes, error)
    | .error e =>
      skipLine each
      return ([], some e)

def lineOf (c : Cursor) (body : Command.Body) : Command :=
  let text := c.upTo body.next
  let raw := trim text
  let position := if raw.isEmpty then c.pos else c.pos + (text.takeWhile isSpace).length
  { raw, nodes := body.nodes, start := c.pos, position, stop := position + raw.length,
    isMacro := c.rest.head? = some '$', error := body.error }

/-- A failure of the scanner for line ends would go through. -/
def finish (first : Cursor) (nodes : List Node) (error : Option Failure) : Routine Command := do
  let last ← here
  if atNewline last.rest then
    let _ ← scan newline
  return lineOf first ⟨nodes, error, last⟩

def comment (first : Cursor) : Routine Command := do
  let _ ← scan (takeWhile (· != '\n'))
  let last ← here
  if last.rest.head? = some '\n' then
    let _ ← scan next
  return .ofComment first.pos (dropEndWhile (· == '\r') (first.upTo last))

def command (limit : Int) (rounds : Nat) : Routine Command := do
  let _ ← scan (atLeast 0 blankClass)
  let first ← here
  if first.rest.head? = some '#' then comment first
  else
    if first.rest.head? = some '$' then
      let _ ← scan next
    let (nodes, error) ← readNodes limit rounds rounds
    finish first nodes error

def commands (limit : Int) (each : Nat) : Nat → Routine (List Command)
  | 0 => stop
  | rounds + 1 => do
    if (← here).atEnd then return []
    let line ← command limit each
    return line :: (← commands limit each rounds)

section
variable {limit depth : Int} {each rounds : Nat} {c : Cursor}

theorem next_of_inside (inside : c.rest ≠ []) : next c = .ok c.peek (c.advance 1) := by
  obtain ⟨x, rest, split⟩ := List.exists_cons_of_ne_nil inside
  rw [next, Cursor.peek, split]
  rfl

theorem skipLine_done (enough : c.rest.length < rounds) :
    skipLine rounds ⟨c, depth⟩ = .done () ⟨Command.skipLine c, depth⟩ := by
  -- A continuation is only scanned where one starts, so that scan does not fail.
  induction rounds generalizing c with
  | zero => exact absurd enough (Nat.not_lt_zero _)
  | succ rounds ih =>
      rw [skipLine, here_bind]
      by_cases ended : c.atLineEnd
      · have free : ¬Continuation.starts c.rest := by
          rw [Continuation.starts, rest?_atLineEnd ended]
          simp
        rw [Command.skipLine_atLineEnd ended, if_neg free]
        rcases Bool.or_eq_true_iff.1 ended with last | line
        · rw [if_pos last]
          rfl
        · rw [if_pos line, ite_self]
          rfl
      obtain ⟨inside, further⟩ := not_or.1 (mt Bool.or_eq_true_iff.2 ended)
      have more : c.rest ≠ [] := mt List.isEmpty_iff.2 inside
      rw [if_neg inside, if_neg further]
      cases found : Continuation.rest? c.rest with
      | some rest =>
          have starts : Continuation.starts c.rest := by rw [Continuation.starts, found]; rfl
          have shorter := Continuation.rest?_length found
          rw [if_pos starts, scan_bind_of_ok (continuation_of_some found),
            Command.skipLine_of_some found]
          exact ih (Nat.lt_of_lt_of_le shorter (Nat.le_of_lt_succ enough))
      | none =>
          have free : ¬Continuation.starts c.rest := by rw [Continuation.starts, found]; simp
          have := List.length_pos_iff.2 more
          rw [if_neg free, scan_bind_of_ok (next_of_inside more),
            Command.skipLine_of_none found ended]
          exact ih (by simp only [Cursor.advance, List.length_drop]; omega)

theorem readNodes_done (enough : c.rest.length < rounds) (within : rounds ≤ each) :
    readNodes limit each rounds ⟨c, 0⟩ =
      let body := Command.readNodes limit c
      .done (body.nodes, body.error) ⟨body.next, 0⟩ := by
  induction rounds generalizing c with
  | zero => exact absurd enough (Nat.not_lt_zero _)
  | succ rounds ih =>
      have space := (reaches_skipSpace c).length_le
      rw [readNodes, bind_apply, caught, scan_bind_of_ok (t := Token.space) rfl, here_bind]
      by_cases ended : (skipSpace c).atLineEnd
      · rw [if_pos ended, Command.readNodes_of_end ended]
        rfl
      have node : Follows c.rest.length 0 (top limit each) (Token.top limit) :=
        follows_top (by omega)
      rw [if_neg ended, bind_apply, node _ space]
      cases read : Token.top limit (skipSpace c) with
      | ok n d =>
          have := (consumes_top _ read).1.length_add
          have := (consumes_top _ read).2
          rw [Command.readNodes_of_ok ended read]
          simp only [Outcome.withDepth]
          change (readNodes limit each rounds >>= _) ⟨d, 0⟩ = _
          rw [bind_apply, ih (by omega) (by omega)]
          rfl
      | fail e d =>
          obtain ⟨_, rfl⟩ := top_fail read
          rw [Command.readNodes_of_fail ended read]
          simp only [Outcome.withDepth]
          rw [bind_apply, skipLine_done (by omega)]
          rfl

theorem readLine_eq (limit : Int) (c : Cursor) :
    let body := Command.readNodes limit (Command.pastDollar c)
    Command.readLine limit c = (lineOf c body, Command.pastNewline body.next) := rfl

theorem finish_done {first : Cursor} (nodes : List Node) (error : Option Failure) :
    finish first nodes error ⟨c, depth⟩ =
      .done (lineOf first ⟨nodes, error, c⟩) ⟨Command.pastNewline c, depth⟩ := by
  rw [finish, here_bind, Command.pastNewline]
  cases found : afterNewline? c.rest with
  | none =>
      have inside : ¬atNewline c.rest := by rw [atNewline, found]; simp
      rw [if_neg inside]
      rfl
  | some rest =>
      obtain ⟨got, read⟩ := newline_of_some found
      have ended : atNewline c.rest := by rw [atNewline, found]; rfl
      rw [if_pos ended, scan_bind_of_ok read]
      rfl

def AtFeed (c : Cursor) : Prop := c.rest = [] ∨ ∃ s, c.rest = '\n' :: s

theorem atFeed_skipWhile (c : Cursor) : AtFeed (c.skipWhile (· != '\n')) := by
  have stops := List.head?_dropWhile_not (· != '\n') c.rest
  rw [AtFeed, Cursor.skipWhile_rest]
  cases left : c.rest.dropWhile (· != '\n') with
  | nil => exact .inl rfl
  | cons x s =>
      have feed : x = '\n' := by simpa [left] using stops
      exact .inr ⟨s, by rw [feed]⟩

theorem comment_done (c : Cursor) :
    comment c ⟨c, depth⟩ =
      .done (Command.readComment c).1 ⟨(Command.readComment c).2, depth⟩ := by
  rw [comment, scan_bind_of_ok (t := takeWhile (· != '\n')) rfl, here_bind, Command.readComment]
  have stops := atFeed_skipWhile c
  generalize c.skipWhile (· != '\n') = line at stops ⊢
  rcases stops with empty | ⟨s, feed⟩
  · have other : line.rest.head? ≠ some '\n' := by simp [empty]
    have still : Command.pastNewline line = line := by rw [Command.pastNewline, empty]; rfl
    rw [if_neg other, still]
    rfl
  · have same : line.rest.head? = some '\n' := by simp [feed]
    have past : Command.pastNewline line = line.advance 1 := by
      simp [Command.pastNewline, feed, afterNewline?, Cursor.leave, Cursor.advance]
    rw [if_pos same, scan_bind_of_ok (next_of_inside (by simp [feed])), past]
    rfl

theorem command_done (limit : Int) (enough : c.rest.length < rounds) :
    command limit rounds ⟨c, 0⟩ =
      let line := Command.read limit c
      .done line.1 ⟨line.2, 0⟩ := by
  rw [command, scan_bind_of_ok (blanks_eq c), here_bind, Command.read]
  have blanks := (c.reaches_skipWhile Text.isBlank).length_le
  generalize c.skipWhile Text.isBlank = first at blanks ⊢
  by_cases hash : first.rest.head? = some '#'
  · simp only [if_pos hash]
    exact comment_done first
  have line (d : Cursor) (short : d.rest.length < rounds) :
      (readNodes limit rounds rounds >>= fun found => finish first found.1 found.2) ⟨d, 0⟩ =
        let body := Command.readNodes limit d
        .done (lineOf first body) ⟨Command.pastNewline body.next, 0⟩ := by
    rw [bind_apply, readNodes_done short (Nat.le_refl _)]
    exact finish_done _ _
  have dollar := (Command.reaches_pastDollar first).length_le
  simp only [if_neg hash, readLine_eq]
  rw [← line _ (by omega), Command.pastDollar]
  by_cases mark : first.rest.head? = some '$'
  · have more : first.rest ≠ [] := by
      rintro empty
      rw [empty] at mark
      cases mark
    rw [if_pos mark, if_pos mark, scan_bind_of_ok (next_of_inside more)]
  · rw [if_neg mark, if_neg mark]

/-- Where a command ends: where the text does, or just after a line end. -/
def Closes (c d : Cursor) : Prop := d.rest = [] ∨ ∃ before, c.rest = before ++ '\n' :: d.rest

theorem Closes.of_reaches {d e : Cursor} (ahead : c.Reaches d) (closes : Closes d e) :
    Closes c e := by
  obtain ⟨read, split, _⟩ := ahead
  refine closes.imp_right fun ⟨before, rest⟩ => ⟨read ++ before, ?_⟩
  rw [split, rest, List.append_assoc]

theorem closes_pastNewline (ended : c.atLineEnd) :
    c.Reaches (Command.pastNewline c) ∧ Closes c (Command.pastNewline c) := by
  rw [Command.pastNewline]
  rcases atLineEnd_iff.1 ended with empty | ⟨s, feed | feed⟩
  · rw [empty]
    exact ⟨.refl c, .inl empty⟩
  · rw [feed]
    exact ⟨c.reaches_leave ⟨['\n'], feed.symm⟩, .inr ⟨[], feed⟩⟩
  · rw [feed]
    exact ⟨c.reaches_leave ⟨['\r', '\n'], feed.symm⟩, .inr ⟨['\r'], feed⟩⟩

theorem closes_read (limit : Int) (c : Cursor) :
    c.Reaches (Command.read limit c).2 ∧ Closes c (Command.read limit c).2 := by
  have blanks := c.reaches_skipWhile Text.isBlank
  rw [Command.read]
  generalize c.skipWhile Text.isBlank = first at blanks ⊢
  have ends {d : Cursor} (ahead : first.Reaches d) (ended : d.atLineEnd) :
      c.Reaches (Command.pastNewline d) ∧ Closes c (Command.pastNewline d) := by
    obtain ⟨further, closes⟩ := closes_pastNewline ended
    exact ⟨(blanks.trans ahead).trans further, closes.of_reaches (blanks.trans ahead)⟩
  by_cases hash : first.rest.head? = some '#'
  · simp only [if_pos hash]
    refine ends (first.reaches_skipWhile (· != '\n')) (atLineEnd_iff.2 ?_)
    exact (atFeed_skipWhile first).imp_right (.imp fun s feed => .inl feed)
  · obtain ⟨ahead, ended⟩ := Command.readNodes_spec limit (Command.pastDollar first)
    simp only [if_neg hash]
    exact ends ((Command.reaches_pastDollar first).trans ahead) ended

/-- The commands are read as those that are read without a counter. -/
theorem commands_eq (limit : Int) (enough : c.rest.length < rounds)
    (within : rounds ≤ each) :
    commands limit each rounds ⟨c, 0⟩ =
      .done (commandsFrom limit c) ⟨⟨c.pos + c.rest.length, []⟩, 0⟩ := by
  induction rounds generalizing c with
  | zero => exact absurd enough (Nat.not_lt_zero _)
  | succ rounds ih =>
      rw [commands, here_bind]
      by_cases ended : c.rest = []
      · have last : c.atEnd := List.isEmpty_iff.2 ended
        obtain ⟨p, rest⟩ := c
        obtain rfl : rest = [] := ended
        rw [if_pos last, commandsFrom_nil]
        rfl
      · have inside : ¬c.atEnd := mt List.isEmpty_iff.1 ended
        have shorter := Command.read_shorter limit ended
        have whole := (closes_read limit c).1.length_add
        rw [if_neg inside, bind_apply, command_done limit (by omega),
          commandsFrom_of_read ended rfl, whole]
        change (commands limit each rounds >>= _) ⟨_, 0⟩ = _
        rw [bind_apply, ih (by omega) (by omega)]
        rfl

end

/-- With rounds enough, a source is read to its end as commands, whatever the limit. Each of them
moves the cursor on, up to a line end or the end of the source, and leaves no level open. -/
theorem commands_done (limit : Int) (source : List Char) :
    ∃ enough, ∀ rounds, enough ≤ rounds →
      commands limit rounds rounds ⟨.start source, 0⟩ =
        .done (commandsWithin limit source) ⟨⟨source.length, []⟩, 0⟩ ∧
      ∀ c, (Cursor.start source).Reaches c → c.rest ≠ [] →
        ∃ d, command limit rounds ⟨c, 0⟩ = .done (Command.read limit c).1 ⟨d, 0⟩ ∧
          c.Reaches d ∧ c.pos < d.pos ∧ Closes c d := by
  refine ⟨source.length + 1, fun rounds enough => ⟨?_, fun c ahead inside => ?_⟩⟩
  · have read := commands_eq (c := .start source) limit enough (Nat.le_refl rounds)
    simpa [Cursor.start, commandsWithin] using read
  · have short := ahead.length_le
    have read := command_done limit (Nat.lt_of_le_of_lt short enough)
    obtain ⟨further, closes⟩ := closes_read limit c
    have whole := further.length_add
    have shorter := Command.read_shorter limit inside
    exact ⟨_, read, further, by omega, closes⟩

end ChatPreview.Routine
