import ChatPreview.Command.Continuation
import Mathlib.Data.List.TakeWhile
import Mathlib.Tactic.Tauto

namespace ChatPreview
open Text

/-- Only blanks, and at most one carriage return after them. -/
def Trails (s : List Char) : Prop :=
  ∃ blanks ret, s = blanks ++ ret ∧ (∀ x ∈ blanks, isBlank x) ∧ (ret = [] ∨ ret = ['\r'])

/-- Whether a line feed after this text is continued. -/
def Continued (text : List Char) : Prop := ∃ before trail, text = before ++ '\\' :: trail ∧ Trails trail

def IsComment (text : List Char) : Prop := (text.dropWhile isBlank).head? = some '#'

instance (text : List Char) : Decidable (IsComment text) := inferInstanceAs (Decidable (_ = _))

/-- No line feed of the text ends its line: a comment has none, and all others are continued. -/
def Unbroken (text : List Char) : Prop :=
  ∀ before after, text = before ++ '\n' :: after → ¬IsComment text ∧ Continued before

/-- The logical lines of a text, each with the line feed that ends it. -/
inductive Lines : List Char → List (List Char) → Prop where
  | none : Lines [] []
  | last {text : List Char} (nonempty : text ≠ []) (unbroken : Unbroken text) : Lines text [text]
  | more {text s : List Char} {ls : List (List Char)} (unbroken : Unbroken text)
      (ends : IsComment text ∨ ¬Continued text) (rest : Lines s ls) :
      Lines (text ++ '\n' :: s) ((text ++ ['\n']) :: ls)

/-! ## Continued text -/

def dropReturn : List Char → List Char
  | '\r' :: s => s
  | s => s

theorem Trails.mem {s : List Char} (trails : Trails s) {x : Char} (member : x ∈ s) :
    isBlank x ∨ x = '\r' := by
  rcases trails with ⟨blanks, ret, rfl, blank, rfl | rfl⟩
  · exact .inl (blank x (by simpa using member))
  · rcases List.mem_append.1 member with first | last
    · exact .inl (blank x first)
    · exact .inr (List.mem_singleton.1 last)

theorem Trails.not_mem {s : List Char} (trails : Trails s) {x : Char} (ink : isBlank x = false)
    (other : x ≠ '\r') : x ∉ s := by
  intro member
  rcases trails.mem member with blank | same
  · rw [ink] at blank
    cases blank
  · exact other same

theorem continued_iff (text : List Char) :
    Continued text ↔ ((dropReturn text.reverse).dropWhile isBlank).head? = some '\\' := by
  have skip (blanks s : List Char) (blank : ∀ x ∈ blanks, isBlank x) :
      ((blanks ++ '\\' :: s).dropWhile isBlank).head? = some '\\' := by
    rw [List.dropWhile_append_of_pos blank]
    rfl
  constructor
  · rintro ⟨before, trail, rfl, blanks, ret, rfl, blank, rfl | rfl⟩
    · have kept : dropReturn (blanks.reverse ++ '\\' :: before.reverse) =
          blanks.reverse ++ '\\' :: before.reverse := by
        cases split : blanks.reverse with
        | nil => rfl
        | cons x s =>
            have : isBlank x := blank x (List.mem_reverse.1 (by simp [split]))
            have other : x ≠ '\r' := by
              rintro rfl
              cases this
            simp [dropReturn, other]
      simp only [List.append_nil, List.reverse_append, List.reverse_cons, List.append_assoc,
        List.cons_append, List.nil_append, kept]
      exact skip _ _ (by simpa using blank)
    · simp only [List.reverse_append, List.reverse_cons, List.reverse_nil, List.append_assoc,
        List.cons_append, List.nil_append, dropReturn]
      exact skip _ _ (by simpa using blank)
  · intro backslash
    have split := List.takeWhile_append_dropWhile (p := isBlank) (l := dropReturn text.reverse)
    rcases List.head?_eq_some_iff.1 backslash with ⟨before, rest⟩
    rw [rest] at split
    have blank : ∀ x ∈ (dropReturn text.reverse).takeWhile isBlank, isBlank x :=
      fun x member => List.mem_takeWhile_imp member
    generalize (dropReturn text.reverse).takeWhile isBlank = blanks at split blank
    have trail (ret : List Char) (only : ret = [] ∨ ret = ['\r']) : Trails (blanks.reverse ++ ret) :=
      ⟨_, ret, rfl, by simpa using blank, only⟩
    unfold dropReturn at split
    split at split
    · rename_i s reversed
      refine ⟨before.reverse, _, ?_, trail ['\r'] (.inr rfl)⟩
      rw [← List.reverse_reverse text, reversed, ← split]
      simp
    · refine ⟨before.reverse, _, ?_, trail [] (.inl rfl)⟩
      rw [← List.reverse_reverse text, ← split]
      simp

instance (text : List Char) : Decidable (Continued text) := decidable_of_iff' _ (continued_iff text)

theorem Continued.append_left {text : List Char} (continued : Continued text)
    (before : List Char) : Continued (before ++ text) := by
  rcases continued with ⟨head, trail, rfl, trails⟩
  exact ⟨before ++ head, trail, by simp, trails⟩

theorem Continued.of_append {s t : List Char} (continued : Continued (s ++ t)) :
    Continued t ∨ ∃ before trail, s = before ++ '\\' :: trail ∧ Trails (trail ++ t) := by
  rcases continued with ⟨before, trail, split, trails⟩
  rcases List.append_eq_append_iff.1 split with ⟨u, rfl, rfl⟩ | ⟨u, rfl, tail⟩
  · exact .inl ⟨u, trail, rfl, trails⟩
  · cases u with
    | nil => exact .inl ⟨[], trail, tail.symm, trails⟩
    | cons x u =>
        rw [List.cons_append] at tail
        cases tail
        exact .inr ⟨before, u, rfl, trails⟩

theorem Continued.of_cons {x : Char} {s : List Char} (continued : Continued (x :: s))
    (other : x ≠ '\\') : Continued s := by
  rcases Continued.of_append (s := [x]) continued with tail | ⟨before, trail, split, _⟩
  · exact tail
  · have member : '\\' ∈ [x] := split ▸ List.mem_append_right _ List.mem_cons_self
    exact absurd (List.mem_singleton.1 member).symm other

theorem Continued.after_feed {s t : List Char} (continued : Continued (s ++ '\n' :: t)) :
    Continued t := by
  have tail : Continued ('\n' :: t) := by
    rcases continued.of_append with tail | ⟨before, trail, _, trails⟩
    · exact tail
    · exact absurd (List.mem_append_right trail List.mem_cons_self)
        (trails.not_mem (by decide) (by decide))
  exact tail.of_cons (by decide)

/-! ## Comments -/

theorem dropWhile_append_of_mem {s : List Char} {x : Char} (member : x ∈ s)
    (ink : isBlank x = false) (t : List Char) :
    (s ++ t).dropWhile isBlank = s.dropWhile isBlank ++ t ∧ s.dropWhile isBlank ≠ [] := by
  have nonempty : s.dropWhile isBlank ≠ [] := by
    intro empty
    have blank := List.dropWhile_eq_nil_iff.1 empty x member
    rw [ink] at blank
    cases blank
  rw [List.dropWhile_append, if_neg (by simpa using nonempty)]
  exact ⟨rfl, nonempty⟩

theorem isComment_append {s : List Char} {x : Char} (member : x ∈ s) (ink : isBlank x = false)
    (t : List Char) : IsComment (s ++ t) ↔ IsComment s := by
  rcases dropWhile_append_of_mem member ink t with ⟨split, nonempty⟩
  rw [IsComment, IsComment, split, List.head?_append, List.head?_eq_some_head nonempty,
    Option.some_or]

theorem IsComment.append {s : List Char} (comment : IsComment s) (t : List Char) :
    IsComment (s ++ t) := by
  rcases List.head?_eq_some_iff.1 comment with ⟨u, split⟩
  have member : '#' ∈ s := (List.dropWhile_suffix isBlank).subset (split ▸ List.mem_cons_self)
  exact (isComment_append member (by decide) t).2 comment

theorem Continued.mem {text : List Char} (continued : Continued text) : '\\' ∈ text := by
  rcases continued with ⟨before, trail, rfl, _⟩
  exact List.mem_append_right _ List.mem_cons_self

/-! ## Splitting a text -/

theorem unbroken_nil : Unbroken [] := fun _ _ split => by simp at split

theorem Unbroken.feed_not_mem {text : List Char} (unbroken : Unbroken text)
    (comment : IsComment text) : '\n' ∉ text := by
  intro member
  rcases List.append_of_mem member with ⟨before, after, split⟩
  exact (unbroken before after split).1 comment

theorem Unbroken.concat {text : List Char} (unbroken : Unbroken text) {x : Char}
    (goes : x = '\n' → ¬IsComment text ∧ Continued text) : Unbroken (text ++ [x]) := by
  intro before after split
  rcases List.eq_nil_or_concat after with rfl | ⟨after, y, rfl⟩
  · rcases List.append_inj' split rfl with ⟨rfl, last⟩
    have ⟨code, continued⟩ := goes (List.cons.inj last).1
    exact ⟨mt (isComment_append continued.mem (by decide) _).1 code, continued⟩
  · have moved : text ++ [x] = (before ++ '\n' :: after) ++ [y] := by simpa using split
    rcases List.append_inj' moved rfl with ⟨rfl, -⟩
    have ⟨code, continued⟩ := unbroken before after rfl
    have feed : '\n' ∈ before ++ '\n' :: after := List.mem_append_right _ List.mem_cons_self
    exact ⟨mt (isComment_append feed (by decide) _).1 code, continued⟩

theorem exists_lines_append (s : List Char) {read : List Char} (unbroken : Unbroken read) :
    ∃ ls, Lines (read ++ s) ls := by
  induction s generalizing read with
  | nil =>
      rw [List.append_nil]
      by_cases empty : read = []
      · exact ⟨[], empty ▸ .none⟩
      · exact ⟨[read], .last empty unbroken⟩
  | cons x s ih =>
      by_cases ends : x = '\n' ∧ (IsComment read ∨ ¬Continued read)
      · rcases ih unbroken_nil with ⟨ls, lines⟩
        rw [ends.1]
        exact ⟨_, .more unbroken ends.2 lines⟩
      · have goes : x = '\n' → ¬IsComment read ∧ Continued read := by tauto
        rcases ih (unbroken.concat goes) with ⟨ls, lines⟩
        exact ⟨ls, by simpa using lines⟩

theorem exists_lines (source : List Char) : ∃ ls, Lines source ls :=
  exists_lines_append source unbroken_nil

theorem Lines.flatten {source : List Char} {ls : List (List Char)} (lines : Lines source ls) :
    ls.flatten = source := by
  induction lines with
  | none => rfl
  | last => simp
  | more _ _ _ ih => simp [ih]

theorem Unbroken.not_append {text after : List Char} (ends : IsComment text ∨ ¬Continued text) :
    ¬Unbroken (text ++ '\n' :: after) := by
  intro unbroken
  have ⟨code, continued⟩ := unbroken text after rfl
  rcases ends with comment | free
  · exact code (comment.append _)
  · exact free continued

/-- There is only one way to split a text into its logical lines. -/
theorem Lines.unique {source : List Char} {ls ms : List (List Char)} (first : Lines source ls)
    (second : Lines source ms) : ls = ms := by
  induction first generalizing ms with
  | none =>
      generalize empty : ([] : List Char) = source at second
      cases second with
      | none => rfl
      | last nonempty => exact absurd empty.symm nonempty
      | more => simp at empty
  | last nonempty unbroken =>
      cases second with
      | none => exact absurd rfl nonempty
      | last => rfl
      | more _ ends => exact absurd unbroken (Unbroken.not_append ends)
  | more unbroken ends rest ih =>
      rename_i text s ls
      generalize same : text ++ '\n' :: s = source at second
      cases second with
      | none => simp at same
      | last _ whole => exact absurd (same ▸ whole) (Unbroken.not_append ends)
      | more unbroken' ends' rest' =>
          rename_i text' s' ls'
          rcases List.append_eq_append_iff.1 same with ⟨u, rfl, tail⟩ | ⟨u, rfl, tail⟩
          · cases u with
            | nil =>
                cases tail
                rw [ih rest', List.append_nil]
            | cons x u =>
                cases tail
                exact absurd unbroken' (Unbroken.not_append ends)
          · cases u with
            | nil =>
                cases tail
                rw [ih rest', List.append_nil]
            | cons x u =>
                cases tail
                exact absurd unbroken (Unbroken.not_append ends')

theorem Lines.append {a b : List Char} {ls ms : List (List Char)} (first : Lines a ls)
    (second : Lines b ms) (ends : a = [] ∨ ∃ before, a = before ++ ['\n'] ∧ ¬Continued before) :
    Lines (a ++ b) (ls ++ ms) := by
  induction first with
  | none => exact second
  | last nonempty unbroken =>
      rcases ends with empty | ⟨before, rfl, free⟩
      · exact absurd empty nonempty
      · exact absurd (unbroken before [] rfl).2 free
  | more unbroken stop rest ih =>
      rename_i text s ls
      have next : s = [] ∨ ∃ before, s = before ++ ['\n'] ∧ ¬Continued before := by
        rcases ends with empty | ⟨before, split, free⟩
        · simp at empty
        · rcases List.eq_nil_or_concat s with rfl | ⟨init, x, rfl⟩
          · exact .inl rfl
          · have moved : (text ++ '\n' :: init) ++ [x] = before ++ ['\n'] := by simpa using split
            rcases List.append_inj' moved rfl with ⟨rfl, last⟩
            refine .inr ⟨init, by simp [(List.cons.inj last).1], fun continued => free ?_⟩
            exact (continued.append_left ['\n']).append_left text
      have lines := Lines.more unbroken stop (ih next)
      simpa using lines

end ChatPreview
