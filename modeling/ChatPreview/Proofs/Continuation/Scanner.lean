import ChatPreview.Proofs.Continuation.Greedy
import ChatPreview.Proofs.Counter.Commands
import ChatPreview.Proofs.Line.Quote
/-!
Where the pattern of a continuation matches, the scanner for one succeeds, and nowhere else. So the
rest of a line and the text of a string, which scan a continuation without a guard, never fail at
it.
-/
namespace ChatPreview
open Text Scan Token

def Greedy.stop? (pattern : Greedy) (source : List Char) (pos : Nat) : Option Nat :=
  (pattern.rest? (source.drop pos)).map fun rest => source.length - rest.length

namespace Routine

/-- Up to the quote that closes a string, or the end of the line. A failure of the scanner for
continuations would go through. -/
def closing (quote : List Char) : Nat → Routine Bool
  | 0 => stop
  | rounds + 1 => do
    let c ← here
    if c.atEnd then return false
    else if Continuation.starts c.rest then
      scan continuation
      closing quote rounds
    else if atNewline c.rest then return false
    else
      let got ← scan next
      if got = ['\\'] then
        if !atNewline (← here).rest then
          let _ ← scan next
        closing quote rounds
      else if got = quote then return true
      else closing quote rounds

def string (rounds : Nat) : Routine Node := do
  let first ← here
  let quote ← scan (oneOf [['"'], ['\'']])
  if ← closing quote rounds then
    return .between .string first (← here) []
  else scan (failAt .unterminated first.pos)

def Closed (quote : Char) (c : Cursor) (depth : Int) (ending : Ending Bool) : Prop :=
  match afterString? quote c.rest with
  | some rest => ending = .done true ⟨c.leave rest, depth⟩
  | none => ∃ d, ending = .done false ⟨d, depth⟩

/-- Whether a routine ends as a scanner does, but for the place at which it fails. -/
def EndsAs {α : Type} (outcome : Outcome α) (depth : Int) (ending : Ending α) : Prop :=
  match outcome with
  | .ok a d => ending = .done a ⟨d, depth⟩
  | .fail e _ => ∃ d, ending = .failed e ⟨d, depth⟩

section
variable {quote : Char} {rounds : Nat} {depth : Int} {c d : Cursor} {ending : Ending Bool}

theorem leave_of_reaches (ahead : c.Reaches d) {rest : List Char} (tail : rest <:+ d.rest) :
    d.leave rest = c.leave rest :=
  (ahead.trans (d.reaches_leave tail)).eq_of_rest_eq
    (c.reaches_leave (tail.trans ahead.suffix)) rfl

theorem Closed.of_reaches (ahead : c.Reaches d)
    (same : afterString? quote c.rest = afterString? quote d.rest)
    (closed : Closed quote d depth ending) : Closed quote c depth ending := by
  rw [Closed] at closed ⊢
  rw [same]
  cases found : afterString? quote d.rest with
  | none =>
      rw [found] at closed
      exact closed
  | some rest =>
      rw [found] at closed
      have same := leave_of_reaches ahead (afterString?_suffix found)
      exact closed.trans (congrArg (fun d => Ending.done true ⟨d, depth⟩) same)

theorem closing_of_end (ended : c.atLineEnd) :
    Closed quote c depth (closing [quote] (rounds + 1) ⟨c, depth⟩) := by
  have free := rest?_atLineEnd ended
  have other : ¬Continuation.starts c.rest := by
    rw [Continuation.starts, free]
    decide
  have left : closing [quote] (rounds + 1) ⟨c, depth⟩ = .done false ⟨c, depth⟩ := by
    rw [closing, here_bind, if_neg other]
    rcases Bool.or_eq_true_iff.mp ended with last | line
    · rw [if_pos last]
      rfl
    · rw [if_pos line, ite_self]
      rfl
  have none : afterString? quote c.rest = none := by
    rcases Bool.or_eq_true_iff.mp ended with last | line
    · rw [List.isEmpty_iff.mp last]
      exact afterString?_nil
    · exact afterString?_of_newline free line
  rw [Closed, none]
  exact ⟨c, left⟩

theorem closing_of_some {rest : List Char} (found : Continuation.rest? c.rest = some rest) :
    closing [quote] (rounds + 1) ⟨c, depth⟩ = closing [quote] rounds ⟨c.leave rest, depth⟩ := by
  have inside : ¬c.atEnd := by
    intro last
    rw [List.isEmpty_iff.mp last] at found
    cases found
  have starts : Continuation.starts c.rest := by
    rw [Continuation.starts, found]
    rfl
  rw [closing, here_bind, if_neg inside, if_pos starts,
    scan_bind_of_ok (continuation_of_some found)]

theorem closing_cons {x : Char} {s : List Char} (text : c.rest = x :: s)
    (free : Continuation.rest? (x :: s) = none) (line : ¬atNewline (x :: s)) :
    closing [quote] (rounds + 1) ⟨c, depth⟩ =
      if x = '\\' then closing [quote] rounds ⟨(c.advance 1).advance (s.take 1).length, depth⟩
      else if x = quote then .done true ⟨c.advance 1, depth⟩
      else closing [quote] rounds ⟨c.advance 1, depth⟩ := by
  have more : c.rest ≠ [] := by simp [text]
  have inside : ¬c.atEnd := mt List.isEmpty_iff.mp more
  have starts : ¬Continuation.starts c.rest := by
    rw [Continuation.starts, text, free]
    decide
  have peek := Cursor.peek_of_cons text
  have after := Cursor.advance_of_cons text
  rw [closing, here_bind, if_neg inside, if_neg starts, if_neg (text ▸ line),
    scan_bind_of_ok (next_of_inside more), peek]
  by_cases backslash : x = '\\'
  · subst backslash
    have here : ¬atNewline s := fun ended => carries_of_atNewline ended free
    have second : next (c.advance 1) =
        .ok (s.take 1) ((c.advance 1).advance (s.take 1).length) := by
      rw [next, Cursor.peek, after]
    rw [if_pos rfl, if_pos rfl, here_bind, after, if_pos (by simpa using here),
      scan_bind_of_ok second]
  · rw [if_neg (by simpa using backslash), if_neg backslash]
    by_cases same : x = quote
    · rw [if_pos (by simpa using same), if_pos same]
      rfl
    · rw [if_neg (by simpa using same), if_neg same]

/-- A continuation is only scanned where one starts, so the loop of a string does not fail. -/
theorem closing_done (quote : Char) (depth : Int) (enough : c.rest.length < rounds) :
    Closed quote c depth (closing [quote] rounds ⟨c, depth⟩) := by
  induction rounds generalizing c with
  | zero => exact absurd enough (Nat.not_lt_zero _)
  | succ rounds ih =>
      by_cases ended : c.atLineEnd
      · exact closing_of_end ended
      obtain ⟨inside, line⟩ := not_or.mp (mt Bool.or_eq_true_iff.mpr ended)
      cases found : Continuation.rest? c.rest with
      | some rest =>
          have shorter := Continuation.rest?_length found
          rw [closing_of_some found]
          exact .of_reaches (c.reaches_leave (Continuation.rest?_suffix found))
            (afterString?_of_some found) (ih (by simp only [Cursor.leave]; omega))
      | none =>
          obtain ⟨x, s, text⟩ := List.exists_cons_of_ne_nil (mt List.isEmpty_iff.mpr inside)
          have after := Cursor.advance_of_cons text
          have step : c.Reaches (c.advance 1) := c.reaches_advance (by simp [text])
          rw [text] at found line enough
          rw [List.length_cons] at enough
          have next : afterString? quote (x :: s) = _ := afterString?_cons found line
          rw [closing_cons text found line]
          by_cases backslash : x = '\\'
          · have two : (s.take 1).length ≤ (c.advance 1).rest.length := by
              rw [after]
              exact List.length_take_le' 1 s
            have rest : ((c.advance 1).advance (s.take 1).length).rest = s.drop 1 := by
              change (c.advance 1).rest.drop _ = _
              rw [after]
              cases s <;> rfl
            rw [if_pos backslash] at next ⊢
            have passed := step.trans (Cursor.reaches_advance two)
            refine .of_reaches passed (by rw [text, next, rest]) (ih ?_)
            rw [rest, List.length_drop]
            omega
          rw [if_neg backslash] at next ⊢
          by_cases same : x = quote
          · have past : c.leave s = c.advance 1 :=
              (c.reaches_leave (text ▸ List.suffix_cons x s)).eq_of_rest_eq step after.symm
            rw [if_pos same] at next ⊢
            rw [Closed, text, next]
            exact congrArg (fun d => Ending.done true ⟨d, depth⟩) past.symm
          · rw [if_neg same] at next ⊢
            exact .of_reaches step (by rw [text, next, after]) (ih (by rw [after]; omega))

theorem oneOf_quotes {x : Char} {s : List Char} (text : c.rest = x :: s) :
    oneOf [['"'], ['\'']] c = if isQuote x then .ok [x] (c.advance 1)
      else .fail ⟨.expectedOneOf [['"'], ['\'']] [x], c.pos⟩ c := by
  rw [oneOf, text, Cursor.peek_of_cons text]
  by_cases double : x = '"'
  · subst double
    rfl
  by_cases one : x = '\''
  · subst one
    rfl
  have other : ¬isQuote x := by simp [isQuote, double, one]
  have none : [['"'], ['\'']].find? (·.isPrefixOf (x :: s)) = none := by
    simp [Ne.symm double, Ne.symm one]
  rw [if_neg other, none]

theorem string_done (depth : Int) (enough : c.rest.length < rounds) :
    EndsAs (Token.string c) depth (string rounds ⟨c, depth⟩) := by
  rw [Token.string, string, here_bind]
  cases text : c.rest with
  | nil =>
      have failed : oneOf [['"'], ['\'']] c =
          .fail ⟨.expectedOneOf [['"'], ['\'']] [], c.pos⟩ c := by
        rw [oneOf, Cursor.peek, text]
        rfl
      refine ⟨c, ?_⟩
      rw [bind_apply, scan, failed]
      rfl
  | cons x s =>
      have opening := oneOf_quotes text
      dsimp only
      by_cases opens : isQuote x
      · rw [if_pos opens] at opening ⊢
        have after := Cursor.advance_of_cons text
        have step : c.Reaches (c.advance 1) := c.reaches_advance (by simp [text])
        have loop : Closed x (c.advance 1) depth (closing [x] rounds ⟨c.advance 1, depth⟩) :=
          closing_done x depth (Nat.lt_of_le_of_lt step.length_le enough)
        rw [scan_bind_of_ok opening, bind_apply]
        rw [Closed, after] at loop
        cases found : afterString? x s with
        | some rest =>
            rw [found] at loop
            have same := leave_of_reaches step (after ▸ afterString?_suffix found)
            rw [loop, same]
            rfl
        | none =>
            rw [found] at loop
            obtain ⟨d, loop⟩ := loop
            rw [loop]
            exact ⟨d, rfl⟩
      · rw [if_neg opens] at opening ⊢
        refine ⟨c, ?_⟩
        rw [bind_apply, scan, opening]
        rfl

end
end Routine

/-- The pattern of a continuation matches where the scanner for one succeeds, up to the same offset.
So neither the rest of a line nor the text of a string fails at a continuation. -/
theorem continuation_recognised (source : List Char) (pos : Nat) :
    (match Greedy.continuation.stop? source pos with
      | some stop => continuation (.seek source pos) = .ok () (.seek source stop)
      | none => ∃ e d, continuation (.seek source pos) = .fail e d) ∧
    Continuation.starts (source.drop pos) = (Greedy.continuation.stop? source pos).isSome ∧
    ∃ enough, ∀ rounds, enough ≤ rounds → ∀ depth,
      Routine.skipLine rounds ⟨.seek source pos, depth⟩ =
        .done () ⟨Command.skipLine (.seek source pos), depth⟩ ∧
      (∀ quote, Routine.Closed quote (.seek source pos) depth
        (Routine.closing [quote] rounds ⟨.seek source pos, depth⟩)) ∧
      Routine.EndsAs (Token.string (.seek source pos)) depth
        (Routine.string rounds ⟨.seek source pos, depth⟩) := by
  have test : Greedy.continuation.stop? source pos =
      (Continuation.rest? (source.drop pos)).map fun rest => source.length - rest.length := by
    rw [Greedy.stop?, Greedy.rest?_continuation]
  refine ⟨?_, ?_, (source.drop pos).length + 1, fun rounds enough depth => ⟨?_, ?_, ?_⟩⟩
  · rw [test]
    cases found : Continuation.rest? (source.drop pos) with
    | none => exact continuation_of_none found
    | some rest =>
        have shorter := Continuation.rest?_length found
        obtain ⟨read, split⟩ := (Continuation.rest?_suffix found).trans (source.drop_suffix pos)
        have length := congrArg List.length split
        rw [List.length_append] at length
        rw [List.length_drop] at shorter
        have start : source.length - rest.length = read.length := by omega
        have last : source.drop read.length = rest := by rw [← split, List.drop_left]
        have leave : (Cursor.seek source pos).leave (source.drop read.length) =
            .seek source read.length := seek_leave (by omega) (by omega)
        rw [last] at leave
        change continuation (.seek source pos) = .ok () (.seek source (source.length - rest.length))
        rw [continuation_of_some found, leave, start]
  · rw [test, Option.isSome_map]
    rfl
  · exact Routine.skipLine_done enough
  · exact fun quote => Routine.closing_done quote depth enough
  · exact Routine.string_done depth enough

end ChatPreview
