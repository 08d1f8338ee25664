import ChatPreview.Proofs.Alignment.Basic
import ChatPreview.Command.Basic
import Mathlib.Tactic.ByContra
import Mathlib.Tactic.Tauto

namespace ChatPreview
open Text Scan Token
variable {c : Cursor}

/-- Whether a character starts no blank, line end or continuation. -/
def Solid (x : Char) : Prop := x ∉ [' ', '\t', '\n', '\r', '\\']

instance (x : Char) : Decidable (Solid x) := inferInstanceAs (Decidable (x ∉ _))

theorem isBlank_iff {x : Char} : isBlank x ↔ x = ' ' ∨ x = '\t' := by
  rw [isBlank, Bool.or_eq_true, beq_iff_eq, beq_iff_eq]

theorem isQuote_iff {x : Char} : isQuote x ↔ x = '"' ∨ x = '\'' := by
  rw [isQuote, Bool.or_eq_true, beq_iff_eq, beq_iff_eq]

theorem ink_of_dropWhile (s : List Char) : ∀ y ∈ (s.dropWhile isBlank).head?, isBlank y = false := by
  intro y head
  have stop := List.head?_dropWhile_not isBlank s
  rw [head] at stop
  simpa using stop

theorem Solid.not_blank {x : Char} (solid : Solid x) : isBlank x = false := by
  simp_all [Solid, isBlank]

theorem Solid.ne_feed {x : Char} (solid : Solid x) : x ≠ '\n' := by
  rintro rfl
  exact solid (by simp)

theorem Solid.ne_return {x : Char} (solid : Solid x) : x ≠ '\r' := by
  rintro rfl
  exact solid (by simp)

theorem starts_of_solid {x : Char} {s : List Char} (solid : Solid x) :
    Continuation.starts (x :: s) = false := by
  have : x ≠ '\\' := fun same => solid (by simp [same])
  unfold Continuation.starts Continuation.rest?
  split <;> simp_all

theorem rest?_of_solid {x : Char} {s : List Char} (solid : Solid x) :
    Continuation.rest? (x :: s) = none := by
  simpa [Continuation.starts] using starts_of_solid solid

theorem solid_of_isQuote {x : Char} (opens : isQuote x) : Solid x := by
  rw [isQuote_iff] at opens
  rcases opens with rfl | rfl <;> decide

theorem atNewline_iff {s : List Char} :
    atNewline s ↔ ∃ t, s = '\n' :: t ∨ s = '\r' :: '\n' :: t := by
  rw [atNewline, afterNewline?.eq_def]
  split <;> simp_all

theorem atLineEnd_iff :
    c.atLineEnd ↔ c.rest = [] ∨ ∃ s, c.rest = '\n' :: s ∨ c.rest = '\r' :: '\n' :: s := by
  rw [Cursor.atLineEnd, Bool.or_eq_true, atNewline_iff, Cursor.atEnd, List.isEmpty_iff]

theorem solid_head_of_inside {x : Char} {s : List Char} (split : c.rest = x :: s)
    (solid : Solid x) : ¬c.atLineEnd := by
  rw [atLineEnd_iff, split]
  rintro (h | ⟨t, h | h⟩)
  · cases h
  · exact solid.ne_feed (List.cons.inj h).1
  · exact solid.ne_return (List.cons.inj h).1

theorem head_ne_of_atLineEnd {x : Char} (ended : c.atLineEnd) (solid : Solid x) :
    c.rest.head? ≠ some x := by
  intro first
  obtain ⟨s, split⟩ := List.head?_eq_some_iff.1 first
  exact solid_head_of_inside split solid ended

/-- Whether a word ends at blanks and line ends, so that it reads solid characters and backslashes. -/
def Breaks (stops : Char → Bool) : Prop := ∀ x ∈ [' ', '\t', '\n', '\r'], stops x

instance (stops : Char → Bool) : Decidable (Breaks stops) :=
  decidable_of_iff ([' ', '\t', '\n', '\r'].all stops) List.all_eq_true

theorem Breaks.not_blank {stops : Char → Bool} (breaks : Breaks stops) {x : Char}
    (free : stops x = false) : isBlank x = false := by
  have space := breaks ' ' (by simp)
  have tab := breaks '\t' (by simp)
  by_contra blank
  simp only [isBlank, Bool.or_eq_false_iff, beq_eq_false_iff_ne, not_and_or, not_not] at blank
  rcases blank with rfl | rfl <;> simp_all

theorem wordChars_atLineEnd {stops : Char → Bool} (breaks : Breaks stops) (ended : c.atLineEnd) :
    wordChars stops c.rest = [] := by
  have feed := breaks '\n' (by simp)
  have ret := breaks '\r' (by simp)
  rcases atLineEnd_iff.1 ended with none | ⟨s, first | first⟩
  · rw [none, wordChars]
  · simp [first, wordChars, feed]
  · simp [first, wordChars, ret]

theorem head_all_of_atLineEnd {stops : Char → Bool} (breaks : Breaks stops) (ended : c.atLineEnd) :
    c.rest.head?.all stops := by
  rcases atLineEnd_iff.1 ended with none | ⟨s, first | first⟩
  · simp [none]
  · simp [first, breaks '\n' (by simp)]
  · simp [first, breaks '\r' (by simp)]

theorem takeWhile_eq_wordChars {p : Char → Bool} (solid : ∀ x, p x → Solid x) (s : List Char) :
    s.takeWhile p = wordChars (!p ·) s := by
  induction s with
  | nil => rfl
  | cons x s ih =>
      rw [List.takeWhile_cons, wordChars, ih]
      by_cases member : p x
      · simp [member, starts_of_solid (solid x member)]
      · simp [member]

theorem breaks_not {p : Char → Bool} (solid : ∀ x, p x → Solid x) : Breaks (!p ·) := by
  intro x member
  by_contra free
  have : p x := by simpa using free
  refine solid x this ?_
  simp only [List.mem_cons, List.not_mem_nil, or_false] at member ⊢
  tauto

/-! ## At the end of a line -/

theorem skipSpace_of_head {x : Char} {s : List Char} (split : c.rest = x :: s)
    (ink : isBlank x = false) (starts : Continuation.starts c.rest = false) : skipSpace c = c := by
  have stays : c.skipWhile isBlank = c := by
    rw [Cursor.skipWhile, split, List.takeWhile_cons_of_neg (by simp [ink])]
    rfl
  have none : Continuation.rest? c.rest = none := by simpa [Continuation.starts] using starts
  rw [skipSpace_eq, stays, none]

theorem skipSpace_blank {x : Char} (blank : isBlank x) (p : Nat) (s : List Char) :
    skipSpace ⟨p, x :: s⟩ = skipSpace ⟨p + 1, s⟩ := by
  have moved : (⟨p, x :: s⟩ : Cursor).skipWhile isBlank = (⟨p + 1, s⟩ : Cursor).skipWhile isBlank := by
    rw [Cursor.skipWhile, Cursor.skipWhile, List.takeWhile_cons_of_pos blank]
    simp [Cursor.advance, Nat.add_assoc, Nat.add_comm 1]
  rw [skipSpace_eq, skipSpace_eq, moved]

theorem rest?_atLineEnd (ended : c.atLineEnd) : Continuation.rest? c.rest = none := by
  rcases atLineEnd_iff.1 ended with none | ⟨s, first | first⟩
  · rw [none]
    rfl
  · rw [first]
    rfl
  · rw [first]
    rfl

theorem skipSpace_atLineEnd (ended : c.atLineEnd) : skipSpace c = c := by
  have starts : Continuation.starts c.rest = false := by
    rw [Continuation.starts, rest?_atLineEnd ended, Option.isSome_none]
  rcases atLineEnd_iff.1 ended with none | ⟨s, first | first⟩
  · obtain ⟨pos, rest⟩ := c
    subst none
    rw [skipSpace_eq]
    rfl
  · exact skipSpace_of_head first (by decide) starts
  · exact skipSpace_of_head first (by decide) starts

theorem Command.skipLine_atLineEnd (ended : c.atLineEnd) : Command.skipLine c = c := by
  rw [Command.skipLine, rest?_atLineEnd ended]
  simp only [ended, if_true]

theorem fails_word (ended : c.atLineEnd) {stops : Char → Bool} (breaks : Breaks stops) :
    (word stops c).Fails := by
  unfold word
  split
  · exact ⟨_, _, rfl⟩
  · simp only [wordChars_atLineEnd breaks ended, List.isEmpty_nil, if_true]
    exact ⟨_, _, rfl⟩

theorem fails_string (ended : c.atLineEnd) : (string c).Fails := by
  unfold string
  split
  · exact ⟨_, _, rfl⟩
  · rename_i quote s split
    have plain : isQuote quote = false := by
      by_contra opens
      exact solid_head_of_inside split (solid_of_isQuote (by simpa using opens)) ended
    simp only [plain, Bool.false_eq_true, if_false]
    exact ⟨_, _, rfl⟩

theorem fails_node {kind : Kind} {s : Scan (List Node)} (first : (s c).Fails) :
    (node kind s c).Fails := by
  obtain ⟨e, d, failed⟩ := first
  exact ⟨e, d, by simp only [node, failed]⟩

theorem fails_opening (ended : c.atLineEnd) {kind : Kind} {x : Char} (solid : Solid x)
    {f : List Char → Scan (List Node)} : (node kind (expect [x] >>= f) c).Fails :=
  fails_node (fails_bind (fails_expect (head_ne_of_atLineEnd ended solid)))

theorem fails_item (ended : c.atLineEnd) {stops : Char → Bool} (breaks : Breaks stops)
    (inner : Deeper) : (item stops inner c).Fails := by
  refine fails_firstOf fun s member => ?_
  simp only [List.mem_cons, List.not_mem_nil, or_false] at member
  rcases member with rfl | rfl | rfl | rfl | rfl
  · exact fails_opening ended (by decide)
  · exact fails_opening ended (by decide)
  · exact fails_string ended
  · exact fails_opening ended (by decide)
  · exact fails_word ended breaks

theorem breaks_endsWord : Breaks endsWord := by decide

theorem breaks_endsValue : Breaks endsValue := by decide

theorem fails_value (ended : c.atLineEnd) (limit : Int) (levels : Nat) :
    (value limit levels c).Fails := by
  rw [value_eq]
  exact fails_item ended breaks_endsValue _

theorem space_atLineEnd (ended : c.atLineEnd) : space c = .ok () c := by
  rw [space, skipSpace_atLineEnd ended]

theorem fails_element (ended : c.atLineEnd) {value : Scan Node} (first : (value c).Fails) :
    (element value c).Fails :=
  fails_bind_of_ok (space_atLineEnd ended) (fails_bind first)

theorem fails_argument (ended : c.atLineEnd) {value : Scan Node} : (argument value c).Fails :=
  fails_bind_of_ok (space_atLineEnd ended) (fails_bind (fails_word ended breaks_endsValue))

theorem fails_run (ended : c.atLineEnd) {k : CharClass} (solid : ∀ x, k.has x → Solid x) :
    (node .literal (atLeast 1 k >>= fun _ => pure []) c).Fails := by
  refine fails_node (fails_bind ?_)
  have none : c.rest.takeWhile k.has = [] := by
    rw [takeWhile_eq_wordChars solid, wordChars_atLineEnd (breaks_not solid) ended]
  simp only [atLeast, none, List.length_nil, Nat.zero_lt_one, if_true]
  exact ⟨_, _, rfl⟩

theorem fails_member (ended : c.atLineEnd) {k : CharClass} (solid : ∀ x, k.has x → Solid x) :
    (member k c).Fails := by
  unfold member
  split
  · rename_i x s split
    have other : ¬k.has x := fun member => solid_head_of_inside split (solid x member) ended
    rw [if_neg other]
    exact ⟨_, _, rfl⟩
  · exact ⟨_, _, rfl⟩

theorem solid_of_class {p : Char → Bool}
    (without : [' ', '\t', '\n', '\r', '\\'].all (!p ·)) : ∀ x, p x → Solid x := by
  intro x inClass member
  have outside := List.all_eq_true.1 without x member
  rw [inClass] at outside
  cases outside

theorem solid_of_key : ∀ x, keyClass.has x → Solid x := solid_of_class (by decide)

theorem solid_of_path : ∀ x, pathClass.has x → Solid x := solid_of_class (by decide)

theorem fails_entry (ended : c.atLineEnd) {value : Scan Node} : (entry value c).Fails := by
  refine fails_bind_of_ok (space_atLineEnd ended) (fails_bind (fails_firstOf fun s member => ?_))
  simp only [List.mem_cons, List.not_mem_nil, or_false] at member
  rcases member with rfl | rfl
  · exact fails_bind (fails_run ended solid_of_path)
  · refine fails_bind (fails_firstOf fun s member => ?_)
    simp only [List.mem_cons, List.not_mem_nil, or_false] at member
    rcases member with rfl | rfl
    · exact fails_run ended solid_of_key
    · exact fails_string ended

end ChatPreview
