import ChatPreview.Preview
import ChatPreview.Proofs.Message.Plain
import Mathlib.Data.List.Infix

namespace ChatPreview.Message
open Text

variable {s t : List Char}

theorem dropBreaks_nil : dropBreaks [] = [] := by
  rw [dropBreaks]
  rfl

theorem dropBreaks_of_some {r : List Char} (found : afterBreak? s = some r) :
    dropBreaks s = dropBreaks r := by
  rw [dropBreaks]
  split
  · rename_i other
    rw [found] at other
    cases other
    rfl
  · rename_i other
    rw [found] at other
    cases other

theorem dropBreaks_cons {x : Char} (free : afterBreak? (x :: s) = none) :
    dropBreaks (x :: s) = x :: dropBreaks s := by
  rw [dropBreaks]
  split
  · rename_i other
    rw [free] at other
    cases other
  · rfl

theorem rest?_eq_afterBreak? (s : List Char) :
    Continuation.rest? s = (afterBreak? s).map (·.dropWhile isBlank) := by
  rw [Continuation.rest?.eq_def, afterBreak?.eq_def]
  split <;> simp

theorem afterBreak?_eq_none (free : Continuation.rest? s = none) : afterBreak? s = none := by
  rw [rest?_eq_afterBreak?] at free
  exact Option.map_eq_none_iff.1 free

theorem afterBreak?_suffix {r : List Char} (found : afterBreak? s = some r) : r <:+ s := by
  unfold afterBreak? at found
  split at found
  · have line := Continuation.afterNewline?_suffix found
    exact (line.trans (List.dropWhile_suffix isBlank)).trans (List.suffix_cons _ _)
  · cases found

theorem not_isControl_of_plain (plain : Plain s) : ∀ x ∈ s, !isControl x := by
  intro x member
  obtain ⟨tab, back, feed⟩ := plain x member
  simp [isControl, tab, back, feed]

theorem plain_unescape (raw : List Char) : Plain (unescape raw) := by
  intro x member
  have kept := (List.mem_filter.1 member).2
  simp only [isControl, Bool.not_eq_true', Bool.or_eq_false_iff, beq_eq_false_iff_ne] at kept
  exact ⟨kept.1.1, kept.1.2, kept.2⟩

theorem dropBreaks_of_feed_not_mem (noFeed : '\n' ∉ s) : dropBreaks s = s := by
  induction s with
  | nil => exact dropBreaks_nil
  | cons x s ih =>
      rw [dropBreaks_cons (afterBreak?_eq_none (rest?_of_feed_not_mem noFeed)),
        ih fun member => noFeed (List.mem_cons_of_mem x member)]

theorem unescape_of_plain (plain : Plain s) : unescape s = s := by
  rw [unescape, dropBreaks_of_feed_not_mem plain.feed_not_mem, List.filter_eq_self]
  exact not_isControl_of_plain plain

/-! ## Messages over several lines -/

theorem afterBreak?_eq_some : afterBreak? s = some t ↔
    ∃ trail, s = '\\' :: (trail ++ '\n' :: t) ∧ Trails trail := by
  constructor
  · intro found
    unfold afterBreak? at found
    split at found
    · obtain ⟨trail, rfl, trails⟩ := afterNewline?_eq_some.1 found
      exact ⟨trail, rfl, trails⟩
    · cases found
  · rintro ⟨trail, rfl, trails⟩
    exact afterNewline?_eq_some.2 ⟨trail, rfl, trails⟩

/-- Whether no space stands in the indent after a line break that a backslash continues. -/
def Flush (s : List Char) : Prop :=
  ∀ t ∈ s.tails, ∀ u ∈ afterBreak? t, ' ' ∉ u.takeWhile isBlank

instance (s : List Char) : Decidable (Flush s) := inferInstanceAs (Decidable (∀ _ ∈ _, _))

theorem Flush.of_suffix (flush : Flush s) (part : t <:+ s) : Flush t := by
  intro u tail
  exact flush u ((List.mem_tails _ _).2 (((List.mem_tails _ _).1 tail).trans part))

theorem joinLines_append_left {blanks : List Char} (all : ∀ x ∈ blanks, isBlank x) :
    joinLines (blanks ++ s) = blanks ++ joinLines s := by
  induction blanks with
  | nil => rfl
  | cons x blanks ih =>
      have free : Continuation.rest? (x :: (blanks ++ s)) = none := by
        cases found : Continuation.rest? (x :: (blanks ++ s)) with
        | none => rfl
        | some t =>
            obtain ⟨trail, v, split, _⟩ := rest?_eq_some.1 found
            have blank := all x List.mem_cons_self
            rw [(List.cons.inj split).1] at blank
            cases blank
      rw [List.cons_append, joinLines_cons free,
        ih fun y member => all y (List.mem_cons_of_mem x member)]
      rfl

theorem filter_blanks {blanks : List Char} (all : ∀ x ∈ blanks, isBlank x) (clear : ' ' ∉ blanks) :
    blanks.filter (!isControl ·) = [] := by
  rw [List.filter_eq_nil_iff]
  intro x member
  have blank := all x member
  rw [isBlank_iff] at blank
  rcases blank with rfl | rfl
  · exact absurd member clear
  · simp [isControl]

/-- Where no indent has a space, to take out the breaks and the control characters is to take out
the continuations. -/
theorem filter_dropBreaks (flush : Flush s) :
    (dropBreaks s).filter (!isControl ·) = (joinLines s).filter (!isControl ·) := by
  fun_induction dropBreaks s with
  | case1 s u found ih =>
      have clear := flush s ((List.mem_tails _ _).2 List.suffix_rfl) u found
      have blank : ∀ x ∈ u.takeWhile isBlank, isBlank x := fun x => List.mem_takeWhile_imp
      have rest : Continuation.rest? s = some (u.dropWhile isBlank) := by
        rw [rest?_eq_afterBreak?, found, Option.map_some]
      obtain ⟨trail, rfl, _⟩ := afterBreak?_eq_some.1 found
      have tail : u <:+ '\\' :: (trail ++ '\n' :: u) := ⟨'\\' :: (trail ++ ['\n']), by simp⟩
      have split := List.takeWhile_append_dropWhile (p := isBlank) (l := u)
      calc
        (dropBreaks u).filter (!isControl ·) = (joinLines u).filter (!isControl ·) :=
          ih (flush.of_suffix tail)
        _ = (u.takeWhile isBlank ++ joinLines (u.dropWhile isBlank)).filter (!isControl ·) := by
          rw [← joinLines_append_left blank, split]
        _ = (joinLines (u.dropWhile isBlank)).filter (!isControl ·) := by
          rw [List.filter_append, filter_blanks blank clear, List.nil_append]
        _ = _ := by rw [joinLines_of_some rest]
  | case2 => rw [joinLines_nil]
  | case3 x s free ih =>
      have free' : Continuation.rest? (x :: s) = none := by
        rw [rest?_eq_afterBreak?, free, Option.map_none]
      rw [joinLines_cons free', List.filter_cons, List.filter_cons,
        ih (flush.of_suffix (List.suffix_cons x s))]

theorem feed_not_mem_joinLines (joined : Joined s) : '\n' ∉ joinLines s := by
  fun_induction joinLines s with
  | case1 s r found ih => exact ih (joined.rest found)
  | case2 => simp
  | case3 x s free ih =>
      have starts : Continuation.starts (x :: s) = false := by rw [Continuation.starts, free]; rfl
      intro member
      cases List.mem_cons.1 member with
      | inl first =>
          have continued := joined [] s (by rw [← first]; rfl)
          exact absurd continued.mem (by simp)
      | inr later => exact ih (joined.of_cons starts) later

theorem unescape_joinLines (flush : Flush s) (joined : Joined s) :
    unescape (joinLines s) = unescape s := by
  rw [unescape, unescape, dropBreaks_of_feed_not_mem (feed_not_mem_joinLines joined),
    filter_dropBreaks flush]

end ChatPreview.Message
