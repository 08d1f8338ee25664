import ChatPreview.Command.Continuation
/-!
Patterns that take as much as they can and give it back where the rest does not fit. The pattern
of a continuation leaves what the continuation does.
-/
namespace ChatPreview
open Text

/-- A character of a class, as many of them as there are, a part that may be missing, and one
pattern after another. -/
inductive Greedy where
  | one (p : Char → Bool)
  | many (p : Char → Bool)
  | optional (part : Greedy)
  | seq (first second : Greedy)

namespace Greedy

def tails (p : Char → Bool) : List Char → List (List Char)
  | [] => [[]]
  | c :: s => if p c then tails p s ++ [c :: s] else [c :: s]

/-- The texts that a pattern may leave, in the order in which it tries them. -/
def rests : Greedy → List Char → List (List Char)
  | one p, s => if s.head?.any p then [s.tail] else []
  | many p, s => tails p s
  | optional part, s => part.rests s ++ [s]
  | seq first second, s => (first.rests s).flatMap second.rests

def rest? (pattern : Greedy) (s : List Char) : Option (List Char) := (pattern.rests s).head?

def char (x : Char) : Greedy := one (· == x)

def lineEnd : Greedy := seq (optional (char '\r')) (seq (char '\n') (many isBlank))

def continuation : Greedy := seq (char '\\') (seq (many isBlank) lineEnd)

section
variable {p : Char → Bool} {c x : Char} {s : List Char}

theorem rests_char_self (x : Char) (s : List Char) : (char x).rests (x :: s) = [s] := by
  simp [rests, char]

theorem rests_char_of_ne (other : c ≠ x) (s : List Char) : (char x).rests (c :: s) = [] := by
  simp [rests, char, other]

theorem tails_eq (p : Char → Bool) (s : List Char) :
    ∃ others, tails p s = s.dropWhile p :: others ∧ ∀ t ∈ others, ∃ c u, t = c :: u ∧ p c := by
  induction s with
  | nil => exact ⟨[], rfl, nofun⟩
  | cons c s ih =>
      rw [tails]
      by_cases member : p c
      · obtain ⟨others, first, kept⟩ := ih
        rw [if_pos member, first, List.dropWhile_cons_of_pos member]
        refine ⟨others ++ [c :: s], rfl, fun t among => ?_⟩
        rcases List.mem_append.mp among with before | last
        · exact kept t before
        · exact ⟨c, s, List.mem_singleton.mp last, member⟩
      · rw [if_neg member, List.dropWhile_cons_of_neg member]
        exact ⟨[], rfl, nofun⟩

theorem rests_many_seq {next : Greedy} (refuses : ∀ c s, p c → next.rests (c :: s) = [])
    (s : List Char) : (seq (many p) next).rests s = next.rests (s.dropWhile p) := by
  obtain ⟨others, first, kept⟩ := tails_eq p s
  have none : others.flatMap next.rests = [] := by
    apply List.flatMap_eq_nil_iff.mpr
    intro t among
    obtain ⟨c, u, rfl, member⟩ := kept t among
    exact refuses c u member
  rw [rests, rests, first, List.flatMap_cons, none, List.append_nil]

theorem rests_lineEnd_feed (s : List Char) : lineEnd.rests ('\n' :: s) = tails isBlank s := by
  rw [lineEnd, rests, rests, rests_char_of_ne (by decide), List.nil_append, List.flatMap_singleton,
    rests, rests_char_self, List.flatMap_singleton, rests]

theorem rests_lineEnd_return (s : List Char) : lineEnd.rests ('\r' :: s) =
    ((char '\n').rests s).flatMap (tails isBlank) := by
  rw [lineEnd, rests, rests, rests_char_self, List.flatMap_append, List.flatMap_singleton,
    List.flatMap_singleton, rests, rests, rests_char_of_ne (by decide), List.flatMap_nil,
    List.append_nil]
  rfl

theorem rests_lineEnd_of_ne (feed : c ≠ '\n') (ret : c ≠ '\r') (s : List Char) :
    lineEnd.rests (c :: s) = [] := by
  rw [lineEnd, rests, rests, rests_char_of_ne ret, List.nil_append, List.flatMap_singleton, rests,
    rests_char_of_ne feed, List.flatMap_nil]

theorem rest?_lineEnd (s : List Char) :
    lineEnd.rest? s = (afterNewline? s).map (·.dropWhile isBlank) := by
  have first (t : List Char) : (tails isBlank t).head? = some (t.dropWhile isBlank) := by
    obtain ⟨others, first, _⟩ := tails_eq isBlank t
    rw [first]
    rfl
  unfold afterNewline?
  split
  · rename_i t
    rw [rest?, rests_lineEnd_feed, first]
    rfl
  · rename_i t
    rw [rest?, rests_lineEnd_return, rests_char_self, List.flatMap_singleton, first]
    rfl
  · rename_i noFeed noPair
    cases s with
    | nil => rfl
    | cons c s =>
        have feed : c ≠ '\n' := by
          rintro rfl
          exact noFeed s rfl
        by_cases ret : c = '\r'
        · subst ret
          have none : (char '\n').rests s = [] := by
            cases s with
            | nil => rfl
            | cons d s =>
                apply rests_char_of_ne
                rintro rfl
                exact noPair s rfl
          rw [rest?, rests_lineEnd_return, none]
          rfl
        · rw [rest?, rests_lineEnd_of_ne feed ret]
          rfl

/-- The pattern of a continuation and the scan for one leave the same text. -/
theorem rest?_continuation (s : List Char) : continuation.rest? s = Continuation.rest? s := by
  cases s with
  | nil => rfl
  | cons c s =>
      by_cases backslash : c = '\\'
      · subst backslash
        have refuses (c : Char) (s : List Char) (blank : isBlank c) :
            lineEnd.rests (c :: s) = [] := by
          apply rests_lineEnd_of_ne
          · rintro rfl
            cases blank
          · rintro rfl
            cases blank
        rw [rest?, continuation, rests, rests_char_self, List.flatMap_singleton,
          rests_many_seq refuses, ← rest?, rest?_lineEnd, Continuation.rest?]
      · rw [rest?, continuation, rests, rests_char_of_ne backslash, Continuation.rest?]
        · rfl
        · intro t same
          exact backslash (List.cons.inj same).1

end
end Greedy
end ChatPreview
