import ChatPreview.Proofs.Line.Commands

namespace ChatPreview
open Text Scan Token

def Cursor.shift (k : Nat) (c : Cursor) : Cursor := ⟨c.pos + k, c.rest⟩

namespace Cursor
variable {k : Nat} {c : Cursor}

@[simp] theorem shift_rest : (c.shift k).rest = c.rest := rfl

@[simp] theorem shift_pos : (c.shift k).pos = c.pos + k := rfl

theorem shift_advance (n : Nat) : (c.shift k).advance n = (c.advance n).shift k := by
  rw [advance, advance, shift, shift, Nat.add_right_comm]

theorem shift_leave (r : List Char) : (c.shift k).leave r = (c.leave r).shift k := by
  rw [leave, leave, shift, shift, Nat.add_right_comm]

theorem shift_skipWhile (p : Char → Bool) :
    (c.shift k).skipWhile p = (c.skipWhile p).shift k := shift_advance _

theorem shift_upTo (d : Cursor) : (c.shift k).upTo (d.shift k) = c.upTo d := by
  rw [upTo, upTo, shift_rest, shift_pos, shift_pos, Nat.add_sub_add_right]

end Cursor

theorem skipSpace_shift (k : Nat) (c : Cursor) :
    skipSpace (c.shift k) = (skipSpace c).shift k := by
  rw [skipSpace_eq, skipSpace_eq, Cursor.shift_skipWhile, Cursor.shift_rest]
  split
  · exact Cursor.shift_leave _
  · rfl

/-- Where in a source a text stands changes nothing but offsets. -/
theorem shift_alignment (k : Nat) : Alignment (· + k) (fun c d => d = c.shift k) where
  pos related := by rw [related, Cursor.shift_pos]
  ordered related related' further := by
    rw [related, related', Cursor.shift_pos, Cursor.shift_pos]
    omega
  head related := by
    rename_i c d
    rw [related]
    rcases Bool.eq_false_or_eq_true c.atLineEnd with ended | inside
    · exact .inl ⟨ended, ended⟩
    · cases split : c.rest with
      | nil => exact .inl ⟨atLineEnd_iff.2 (.inl split), atLineEnd_iff.2 (.inl split)⟩
      | cons x s =>
          have free : ¬c.atLineEnd := Bool.eq_false_iff.1 inside
          exact .inr ⟨free, free, x, s, s, rfl, split⟩
  starts related := by rw [related, Cursor.shift_rest]
  step related _ _ _ _ := by rw [related, Cursor.shift_advance]
  skip related := by rw [related, skipSpace_shift]
  close related split split' _ := by
    rename_i c d quote s t _
    have same : t = s := by
      rw [related, Cursor.shift_rest, split] at split'
      exact (List.cons.inj split').2.symm
    rw [same, related]
    cases afterString? quote s with
    | none => exact .none
    | some r => exact .some (Cursor.shift_leave r)
  span related related' _ _ := by rw [related, related', Cursor.shift_upTo]

namespace Command

theorem skipLine_shift (k : Nat) (c : Cursor) : skipLine (c.shift k) = (skipLine c).shift k := by
  fun_induction skipLine c with
  | case1 c r found ih => rw [skipLine_of_some (c := c.shift k) found, Cursor.shift_leave, ih]
  | case2 c free ended => exact skipLine_atLineEnd (c := c.shift k) ended
  | case3 c free inside ih =>
      rw [skipLine_of_none (c := c.shift k) free inside, Cursor.shift_advance, ih]

theorem readNodes_shift (limit : Int) (k : Nat) (c : Cursor) :
    readNodes limit (c.shift k) =
      ⟨(readNodes limit c).nodes.map (·.relocate (· + k)),
       (readNodes limit c).error.map (·.shift k), (readNodes limit c).next.shift k⟩ := by
  have lines {c d : Cursor} (related : d = c.shift k) : skipLine d = (skipLine c).shift k := by
    rw [related, skipLine_shift]
  have agree := (shift_alignment k).readNodes_agree (E := fun c d => d = c.shift k) lines limit
    (rfl : c.shift k = c.shift k)
  rcases agree with ⟨nodes, error, next⟩
  have moved : (readNodes limit (c.shift k)).error =
      (readNodes limit c).error.map (·.shift k) := by
    generalize (readNodes limit c).error = e at error
    generalize (readNodes limit (c.shift k)).error = e' at error
    cases error <;> simp [Failure.shift]
  rw [← nodes, ← moved, ← next]

theorem pastNewline_shift (k : Nat) (c : Cursor) :
    pastNewline (c.shift k) = (pastNewline c).shift k := by
  rw [pastNewline, pastNewline, Cursor.shift_rest]
  split
  · exact Cursor.shift_leave _
  · rfl

theorem pastDollar_shift (k : Nat) (c : Cursor) :
    pastDollar (c.shift k) = (pastDollar c).shift k := by
  rw [pastDollar, pastDollar, Cursor.shift_rest]
  split
  · exact Cursor.shift_advance 1
  · rfl

theorem readComment_shift (k : Nat) (c : Cursor) :
    readComment (c.shift k) = ((readComment c).1.shift k, (readComment c).2.shift k) := by
  rw [readComment, readComment, Cursor.shift_skipWhile, Cursor.shift_upTo, pastNewline_shift]
  simp [Command.shift, Node.relocate, Node.relocateAll, Nat.add_right_comm]

theorem readLine_shift (limit : Int) (k : Nat) (c : Cursor) :
    readLine limit (c.shift k) = ((readLine limit c).1.shift k, (readLine limit c).2.shift k) := by
  rw [readLine, readLine, pastDollar_shift, readNodes_shift, Cursor.shift_upTo, pastNewline_shift]
  simp only [Command.shift, Cursor.shift_rest, Cursor.shift_pos]
  by_cases empty : (trim (c.upTo (readNodes limit (pastDollar c)).next)).isEmpty
  · simp only [empty, if_true, Nat.add_right_comm]
    rfl
  · simp only [empty, Bool.false_eq_true, if_false, Nat.add_right_comm]
    rfl

theorem read_shift (limit : Int) (k : Nat) (c : Cursor) :
    read limit (c.shift k) = ((read limit c).1.shift k, (read limit c).2.shift k) := by
  rw [read, read, Cursor.shift_skipWhile, Cursor.shift_rest]
  by_cases hash : (c.skipWhile Text.isBlank).rest.head? = some '#'
  · rw [if_pos hash, if_pos hash, readComment_shift]
  · rw [if_neg hash, if_neg hash, readLine_shift]

end Command

theorem placed_append (p : Nat) (ls ms : List (List Char)) :
    placed p (ls ++ ms) = placed p ls ++ placed (p + ls.flatten.length) ms := by
  induction ls generalizing p with
  | nil => rfl
  | cons line ls ih =>
      rw [List.cons_append, placed, placed, ih, List.cons_append, List.flatten_cons,
        List.length_append, Nat.add_assoc]

theorem placed_shift (k p : Nat) (ls : List (List Char)) :
    placed (p + k) ls = (placed p ls).map (·.shift k) := by
  induction ls generalizing p with
  | nil => rfl
  | cons line ls ih =>
      rw [placed, placed, List.map_cons, ← ih, Nat.add_right_comm]
      rfl

/-- However a text before a line start reads, it neither hides nor changes a command after it. -/
theorem commandsWithin_append (limit : Int) (a b : List Char)
    (ends : a = [] ∨ ∃ before, a = before ++ ['\n'] ∧ ¬Continued before) :
    commandsWithin limit (a ++ b) =
      commandsWithin limit a ++ (commandsWithin limit b).map (·.shift a.length) := by
  rcases exists_lines a with ⟨ls, first⟩
  rcases exists_lines b with ⟨ms, second⟩
  have whole := first.append second ends
  have read {source : List Char} {ls : List (List Char)} (lines : Lines source ls) :
      commandsWithin limit source =
        (placed 0 ls).map fun line => (Command.read limit line).1 :=
    (commandsFrom_lines limit lines 0).1
  rw [read whole, read first, read second, placed_append, List.map_append, first.flatten,
    placed_shift, List.map_map, List.map_map]
  congr 1
  apply List.map_congr_left
  intro line _
  exact congrArg Prod.fst (Command.read_shift limit a.length line)

theorem commandsWithin_append_unclosed :
    ¬Continued "tellraw @a [".toList ∧
      commandsWithin nestingLimit ("tellraw @a [\n".toList ++ "say hi".toList) =
        commandsWithin nestingLimit "tellraw @a [\n".toList ++
          (commandsWithin nestingLimit "say hi".toList).map (·.shift 13) := by
  have free : ¬Continued "tellraw @a [".toList := by decide
  exact ⟨free, commandsWithin_append nestingLimit _ _ (.inr ⟨"tellraw @a [".toList, rfl, free⟩)⟩

end ChatPreview
