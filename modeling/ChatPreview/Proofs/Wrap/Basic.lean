import ChatPreview.Proofs.Line.Local
/-!
One line of text, written over several lines with continuations.
-/
namespace ChatPreview
open Text Scan Token

/-- A character of a line, and the continuation that is written after it, if any. -/
structure Piece where
  char : Char
  after : List Char
  deriving DecidableEq, Repr

def plain (pieces : List Piece) : List Char := pieces.map (·.char)

def written (pieces : List Piece) : List Char := pieces.flatMap fun piece => piece.char :: piece.after

def IsContinuation (s : List Char) : Prop :=
  ∃ trail indent, s = '\\' :: (trail ++ '\n' :: indent) ∧ Trails trail ∧ ∀ x ∈ indent, isBlank x

/-- Whether the continuations stand between words, each after a blank and before none. -/
def Wrapped : List Piece → Prop
  | [] => True
  | piece :: rest =>
    (piece.char ≠ '\n' ∧ piece.char ≠ '\r') ∧
      (piece.after = [] ∨ IsContinuation piece.after ∧ isBlank piece.char ∧
        ∀ next ∈ rest.head?, isBlank next.char = false) ∧
      Wrapped rest

theorem plain_append (a b : List Piece) : plain (a ++ b) = plain a ++ plain b := List.map_append

theorem written_cons (piece : Piece) (rest : List Piece) :
    written (piece :: rest) = piece.char :: (piece.after ++ written rest) := rfl

theorem written_append (a b : List Piece) : written (a ++ b) = written a ++ written b :=
  List.flatMap_append

theorem written_of_bare {pieces : List Piece} (bare : ∀ piece ∈ pieces, piece.after = []) :
    written pieces = plain pieces := by
  induction pieces with
  | nil => rfl
  | cons piece rest ih =>
      rw [written_cons, bare piece List.mem_cons_self, plain, List.map_cons, List.nil_append,
        ih fun later member => bare later (List.mem_cons_of_mem piece member)]
      rfl

theorem length_le_written (pieces : List Piece) : pieces.length ≤ (written pieces).length := by
  induction pieces with
  | nil => exact Nat.le_refl 0
  | cons piece rest ih =>
      rw [written_cons, List.length_cons, List.length_cons, List.length_append]
      omega

theorem Wrapped.of_append {a b : List Piece} (wrapped : Wrapped (a ++ b)) :
    Wrapped a ∧ Wrapped b := by
  induction a with
  | nil => exact ⟨trivial, wrapped⟩
  | cons piece a ih =>
      rw [List.cons_append] at wrapped
      rcases wrapped with ⟨line, placed, rest⟩
      rcases ih rest with ⟨left, right⟩
      refine ⟨⟨line, ?_, left⟩, right⟩
      rcases placed with none | ⟨continuation, blank, next⟩
      · exact .inl none
      · refine .inr ⟨continuation, blank, fun follower member => next follower ?_⟩
        rw [List.head?_append, member, Option.some_or]
        rfl

section
variable {pieces rest : List Piece} {piece : Piece}

theorem Wrapped.after_of_ink (wrapped : Wrapped (piece :: rest))
    (ink : isBlank piece.char = false) : piece.after = [] := by
  rcases wrapped.2.1 with none | ⟨_, blank, _⟩
  · exact none
  · rw [ink] at blank
    cases blank

theorem not_newline {x : Char} {s : List Char} (line : x ≠ '\n' ∧ x ≠ '\r') :
    afterNewline? (x :: s) = none := by
  cases ended : afterNewline? (x :: s) with
  | none => rfl
  | some r =>
      have newline : atNewline (x :: s) := by rw [atNewline, ended, Option.isSome_some]
      rcases atNewline_iff.1 newline with ⟨t, first | first⟩
      · exact absurd (List.cons.inj first).1 line.1
      · exact absurd (List.cons.inj first).1 line.2

theorem atNewline_plain (wrapped : Wrapped pieces) : atNewline (plain pieces) = false := by
  cases pieces with
  | nil => rfl
  | cons piece rest => rw [plain, List.map_cons, atNewline, not_newline wrapped.1, Option.isSome_none]

theorem atNewline_written (wrapped : Wrapped pieces) : atNewline (written pieces) = false := by
  cases pieces with
  | nil => rfl
  | cons piece rest => rw [written_cons, atNewline, not_newline wrapped.1, Option.isSome_none]

theorem feed_not_mem_plain (wrapped : Wrapped pieces) : '\n' ∉ plain pieces := by
  induction pieces with
  | nil => exact List.not_mem_nil
  | cons piece rest ih =>
      intro member
      rcases List.mem_cons.1 member with first | later
      · exact wrapped.1.1 first.symm
      · exact ih wrapped.2.2 later

theorem rest?_plain (wrapped : Wrapped pieces) : Continuation.rest? (plain pieces) = none :=
  rest?_of_feed_not_mem (feed_not_mem_plain wrapped)

theorem afterNewline?_written (wrapped : Wrapped pieces) :
    afterNewline? ((written pieces).dropWhile isBlank) = none := by
  induction pieces with
  | nil => rfl
  | cons piece rest ih =>
      rw [written_cons]
      by_cases blank : isBlank piece.char
      · rw [List.dropWhile_cons_of_pos blank]
        rcases wrapped.2.1 with none | ⟨⟨trail, indent, split, _⟩, _⟩
        · rw [none, List.nil_append]
          exact ih wrapped.2.2
        · rw [split]
          rfl
      · rw [List.dropWhile_cons_of_neg blank]
        exact not_newline wrapped.1

theorem rest?_written (wrapped : Wrapped pieces) : Continuation.rest? (written pieces) = none := by
  cases pieces with
  | nil => rfl
  | cons piece rest =>
      rw [written_cons]
      by_cases backslash : piece.char = '\\'
      · have bare := wrapped.after_of_ink (by rw [backslash]; rfl)
        rw [backslash, bare, List.nil_append, Continuation.rest?, afterNewline?_written wrapped.2.2]
        rfl
      · rw [Continuation.rest?.eq_def]
        split
        · rename_i same
          exact absurd (List.cons.inj same).1 backslash
        · rfl

theorem dropWhile_written (ink : ∀ next ∈ pieces.head?, isBlank next.char = false) :
    (written pieces).dropWhile isBlank = written pieces := by
  cases pieces with
  | nil => rfl
  | cons piece rest =>
      have first : ¬isBlank piece.char := Bool.eq_false_iff.1 (ink piece rfl)
      rw [written_cons, List.dropWhile_cons_of_neg first]

/-- A continuation that is written leads to the next character of the line. -/
theorem rest?_after (wrapped : Wrapped (piece :: rest)) (some' : piece.after ≠ []) :
    Continuation.rest? (piece.after ++ written rest) = some (written rest) := by
  rcases wrapped.2.1 with none | ⟨⟨trail, indent, split, trails, blank⟩, _, next⟩
  · exact absurd none some'
  · apply rest?_eq_some.2
    refine ⟨trail, indent ++ written rest, by simp [split], trails, ?_⟩
    rw [List.dropWhile_append_of_pos blank, dropWhile_written next]

end

theorem joined_of_continuation {s : List Char} (continuation : IsContinuation s) : Joined s := by
  rcases continuation with ⟨trail, indent, rfl, trails, blank⟩
  intro before after split
  have noFeed : '\n' ∉ indent := by
    intro member
    have := blank '\n' member
    cases this
  have line : '\\' :: trail ++ '\n' :: indent = before ++ '\n' :: after := split
  rcases List.append_eq_append_iff.1 line with ⟨u, rfl, rest⟩ | ⟨u, first, rest⟩
  · cases u with
    | nil =>
        rw [List.append_nil]
        exact trails.continued
    | cons x u =>
        cases rest
        exact absurd (List.mem_append_right u List.mem_cons_self) noFeed
  · cases u with
    | nil =>
        rw [List.append_nil] at first
        exact first ▸ trails.continued
    | cons x u =>
        cases rest
        have member : '\n' ∈ '\\' :: trail := first ▸ List.mem_append_right before List.mem_cons_self
        rcases List.mem_cons.1 member with same | inside
        · cases same
        · exact absurd inside (trails.not_mem (by decide) (by decide))

theorem joined_written {pieces : List Piece} (wrapped : Wrapped pieces) :
    Joined (written pieces) := by
  induction pieces with
  | nil => exact joined_of_feed_not_mem List.not_mem_nil
  | cons piece rest ih =>
      have first : Joined [piece.char] := by
        apply joined_of_feed_not_mem
        intro member
        exact wrapped.1.1 (List.mem_singleton.1 member).symm
      have after : Joined piece.after := by
        rcases wrapped.2.1 with none | ⟨continuation, _⟩
        · rw [none]
          exact joined_of_feed_not_mem List.not_mem_nil
        · exact joined_of_continuation continuation
      exact first.append (after.append (ih wrapped.2.2))

/-! ## Text between two places of the line -/

theorem joinLines_written {pieces : List Piece} (wrapped : Wrapped pieces) :
    joinLines (written pieces) = plain pieces := by
  induction pieces with
  | nil => exact joinLines_nil
  | cons piece rest ih =>
      have free := rest?_written wrapped
      rw [written_cons] at free ⊢
      rw [joinLines_cons free, plain, List.map_cons]
      apply congrArg
      by_cases bare : piece.after = []
      · rw [bare, List.nil_append]
        exact ih wrapped.2.2
      · rw [joinLines_of_some (rest?_after wrapped bare)]
        exact ih wrapped.2.2

end ChatPreview
