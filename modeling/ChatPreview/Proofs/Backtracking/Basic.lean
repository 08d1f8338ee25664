import ChatPreview.Proofs.Counter.Basic

namespace ChatPreview
open Scan

namespace Routine

theorem follows_map {α β : Type} {size : Nat} {depth : Int} {r : Routine α} {t : Scan α}
    (f : α → β) (follows : Follows size depth r t) : Follows size depth (f <$> r) (f <$> t) := by
  intro c short
  change (r >>= fun a => pure (f a)) _ = ((t >>= fun a => pure (f a)) c).withDepth depth
  rw [bind_apply, Scan.bind_apply, follows c short]
  cases t c <;> rfl

namespace Stepwise

def recover (mark : Cursor) : Routine Unit := fun s => .done () { s with cursor := mark }

def refuse {α : Type} (cause : List Char → Cause) : Routine α :=
  scan fun c => .fail ⟨cause c.peek, c.pos⟩ c

def walk : List Char → Routine Bool
  | [] => return true
  | x :: text => do
    if (← here).peek = [x] then
      let _ ← scan next
      walk text
    else return false

def expect (text : List Char) : Routine (List Char) := do
  let first ← here
  let agreed ← walk text
  let last ← here
  if agreed then return first.upTo last
  recover first
  refuse fun found => .expected text (first.upTo last ++ found)

def firstText : List (List Char) → Routine (Option (List Char))
  | [] => return none
  | text :: rest => do
    match ← attempt (expect text) with
    | some got => return some got
    | none => firstText rest

def oneOf (choices : List (List Char)) : Routine (List Char) := do
  match ← firstText choices with
  | some got => return got
  | none => refuse fun found => .expectedOneOf choices found

def member (k : CharClass) : Routine (List Char) := do
  if (← here).peek.any k.has then scan next
  else refuse fun found => .expectedIn k.written found

def passWhile (p : Char → Bool) : Nat → Routine Unit
  | 0 => stop
  | rounds + 1 => do
    if (← here).peek.any p then
      let _ ← scan next
      passWhile p rounds

def takeWhile (p : Char → Bool) (rounds : Nat) : Routine (List Char) := do
  let first ← here
  passWhile p rounds
  return first.upTo (← here)

def atLeast (least : Nat) (k : CharClass) (rounds : Nat) : Routine (List Char) := do
  let first ← here
  let run ← takeWhile k.has rounds
  if run.length < least then
    recover first
    refuse fun _ => .tooFew least k.written run.length
  else return run

theorem refuse_apply {α : Type} (cause : List Char → Cause) (s : State) :
    (refuse cause : Routine α) s = .failed ⟨cause s.cursor.peek, s.cursor.pos⟩ s := rfl

section
variable {size rounds : Nat} {depth : Int} {c : Cursor}

theorem common_isPrefix (text s : List Char) : common text s <+: s := by
  induction text generalizing s with
  | nil => exact List.nil_prefix
  | cons x text ih =>
      cases s with
      | nil => exact List.nil_prefix
      | cons y s =>
          rw [common]
          split
          · rename_i same
            rw [same]
            exact List.cons_prefix_cons.mpr ⟨rfl, ih s⟩
          · exact List.nil_prefix

theorem common_of_isPrefix {text s : List Char} (starts : text <+: s) : common text s = text := by
  induction text generalizing s with
  | nil => cases s <;> rfl
  | cons x text ih =>
      obtain ⟨rest, rfl⟩ := starts
      rw [List.cons_append, common, if_pos rfl, ih (List.prefix_append text rest)]

theorem walk_done (text : List Char) (c : Cursor) :
    walk text ⟨c, depth⟩ =
      .done (text.isPrefixOf c.rest) ⟨c.advance (common text c.rest).length, depth⟩ := by
  induction text generalizing c with
  | nil => cases c.rest <;> rfl
  | cons x text ih =>
      rw [walk, here_bind]
      cases line : c.rest with
      | nil =>
          rw [Cursor.peek_of_nil line]
          rfl
      | cons y s =>
          rw [Cursor.peek_of_cons line, common, List.isPrefixOf]
          by_cases same : x = y
          · subst same
            rw [if_pos rfl, if_pos rfl, scan_bind_of_ok (next_of_cons line), ih,
              Cursor.advance_of_cons line, Cursor.advance_advance, List.length_cons, Nat.add_comm,
              beq_self_eq_true, Bool.true_and]
          · have other : [y] ≠ [x] := fun equal => same (List.cons.inj equal).1.symm
            rw [if_neg other, if_neg same, beq_eq_false_iff_ne.mpr same, Bool.false_and]
            rfl

theorem follows_expect (text : List Char) :
    Follows size depth (expect text) (Scan.expect text) := by
  intro c _
  have span : c.upTo (c.advance (common text c.rest).length) = common text c.rest := by
    rw [Cursor.upTo_advance]
    exact (List.prefix_iff_eq_take.mp (common_isPrefix text c.rest)).symm
  rw [expect, here_bind, bind_apply, walk_done]
  dsimp only
  rw [here_bind, Scan.expect, span]
  by_cases starts : text.isPrefixOf c.rest
  · have whole := common_of_isPrefix (List.isPrefixOf_iff_prefix.mp starts)
    rw [if_pos starts, if_pos starts, whole]
    rfl
  · rw [if_neg starts, if_neg starts]
    rfl

theorem firstText_done (choices : List (List Char)) (c : Cursor) :
    firstText choices ⟨c, depth⟩ =
      match choices.find? (·.isPrefixOf c.rest) with
      | some text => .done (some text) ⟨c.advance text.length, depth⟩
      | none => .done none ⟨c, depth⟩ := by
  induction choices with
  | nil => rfl
  | cons text rest ih =>
      rw [firstText, bind_apply, follows_attempt (follows_expect text) c (Nat.le_refl _),
        Scan.attempt, Scan.expect, List.find?_cons]
      by_cases starts : text.isPrefixOf c.rest
      · rw [if_pos starts, starts]
        rfl
      · rw [if_neg starts, Bool.eq_false_iff.mpr starts]
        exact ih

theorem follows_oneOf (choices : List (List Char)) :
    Follows size depth (oneOf choices) (Scan.oneOf choices) := by
  intro c _
  rw [oneOf, bind_apply, firstText_done, Scan.oneOf]
  cases choices.find? (·.isPrefixOf c.rest) <;> rfl

theorem follows_member (k : CharClass) :
    Follows size depth (member k) (Scan.member k) := by
  intro c _
  rw [member, here_bind, Scan.member]
  cases line : c.rest with
  | nil =>
      have peek := Cursor.peek_of_nil line
      rw [peek, List.any_nil, if_neg Bool.false_ne_true, refuse_apply]
      dsimp only
      rw [peek]
      rfl
  | cons x s =>
      have peek := Cursor.peek_of_cons line
      dsimp only
      rw [peek, List.any_cons, List.any_nil, Bool.or_false]
      by_cases inside : k.has x
      · rw [if_pos inside, if_pos inside]
        exact congrArg (Outcome.withDepth depth) (next_of_cons line)
      · rw [if_neg inside, if_neg inside]
        rw [refuse_apply, peek]
        rfl

theorem passWhile_done (p : Char → Bool) (enough : c.rest.length < rounds) :
    passWhile p rounds ⟨c, depth⟩ = .done () ⟨c.skipWhile p, depth⟩ := by
  -- Each round reads a character, so there are rounds enough.
  induction rounds generalizing c with
  | zero => exact absurd enough (Nat.not_lt_zero _)
  | succ rounds ih =>
      rw [passWhile, here_bind, Cursor.skipWhile]
      cases line : c.rest with
      | nil =>
          rw [Cursor.peek_of_nil line]
          rfl
      | cons x s =>
          have after := Cursor.advance_of_cons line
          rw [Cursor.peek_of_cons line, List.any_cons, List.any_nil, Bool.or_false]
          by_cases inside : p x
          · have short : (c.advance 1).rest.length < rounds := by
              rw [line, List.length_cons] at enough
              rw [after]
              exact Nat.lt_of_succ_lt_succ enough
            rw [if_pos inside, scan_bind_of_ok (next_of_cons line), ih short, Cursor.skipWhile,
              after, Cursor.advance_advance, List.takeWhile_cons_of_pos inside, List.length_cons,
              Nat.add_comm]
          · rw [if_neg inside, List.takeWhile_cons_of_neg inside]
            rfl

theorem takeWhile_done (p : Char → Bool) (enough : c.rest.length < rounds) :
    takeWhile p rounds ⟨c, depth⟩ = .done (c.rest.takeWhile p) ⟨c.skipWhile p, depth⟩ := by
  have span : c.upTo (c.skipWhile p) = c.rest.takeWhile p := by
    rw [Cursor.skipWhile, Cursor.upTo_advance]
    exact (List.prefix_iff_eq_take.mp (List.takeWhile_prefix p)).symm
  rw [takeWhile, here_bind, bind_apply, passWhile_done p enough]
  dsimp only
  rw [here_bind, span]
  rfl

theorem follows_takeWhile (p : Char → Bool) (enough : size < rounds) :
    Follows size depth (takeWhile p rounds) (Scan.takeWhile p) :=
  fun _ short => takeWhile_done p (Nat.lt_of_le_of_lt short enough)

theorem follows_atLeast (least : Nat) (k : CharClass) (enough : size < rounds) :
    Follows size depth (atLeast least k rounds) (Scan.atLeast least k) := by
  intro c short
  rw [atLeast, here_bind, bind_apply, takeWhile_done k.has (Nat.lt_of_le_of_lt short enough),
    Scan.atLeast]
  dsimp only
  by_cases few : (c.rest.takeWhile k.has).length < least
  · rw [if_pos few, if_pos few]
    rfl
  · rw [if_neg few, if_neg few]
    rfl

end
end Stepwise
end Routine
end ChatPreview
