import ChatPreview.Json.Decode
import ChatPreview.Proofs.Line.Local

namespace ChatPreview
open Text Scan Token

def Plain (s : List Char) : Prop := ∀ x ∈ s, x ≠ '\t' ∧ x ≠ '\r' ∧ x ≠ '\n'

def Runs (p : Char → Bool) (c d : Cursor) : Prop :=
  ∃ run, c.rest = run ++ d.rest ∧ d.pos = c.pos + run.length ∧ ∀ x ∈ run, p x

namespace Runs
variable {p : Char → Bool} {c d e : Cursor}

theorem reaches (h : Runs p c d) : c.Reaches d := by
  rcases h with ⟨run, rest, pos, _⟩
  exact ⟨run, rest, pos⟩

theorem refl (c : Cursor) : Runs p c c := ⟨[], rfl, rfl, by simp⟩

theorem trans (first : Runs p c d) (second : Runs p d e) : Runs p c e := by
  rcases first with ⟨run, rest, pos, all⟩
  rcases second with ⟨run', rest', pos', all'⟩
  refine ⟨run ++ run', by rw [rest, rest', List.append_assoc], ?_, fun x member => ?_⟩
  · rw [pos', pos, List.length_append, Nat.add_assoc]
  · rcases List.mem_append.1 member with left | right
    · exact all x left
    · exact all' x right

theorem head (h : Runs p c d) (further : c.pos < d.pos) : ∃ x s, c.rest = x :: s ∧ p x := by
  rcases h with ⟨run, split, pos, all⟩
  cases run with
  | nil =>
      rw [List.length_nil] at pos
      omega
  | cons x run => exact ⟨x, run ++ d.rest, split, all x List.mem_cons_self⟩

theorem advance {run : List Char} (first : run <+: c.rest) (all : ∀ x ∈ run, p x) :
    Runs p c (c.advance run.length) := by
  rcases first with ⟨s, split⟩
  refine ⟨run, ?_, rfl, all⟩
  rw [Cursor.advance, ← split, List.drop_left]

end Runs

section
variable {s : List Char} {c d : Cursor}

theorem Plain.of_reaches (plain : Plain c.rest) (ahead : c.Reaches d) : Plain d.rest := by
  rcases ahead with ⟨read, split, _⟩
  intro x member
  exact plain x (split ▸ List.mem_append_right read member)

theorem Plain.of_suffix {t : List Char} (plain : Plain s) (part : t <:+ s) : Plain t :=
  fun x member => plain x (part.subset member)

theorem Plain.append {t : List Char} (first : Plain s) (second : Plain t) : Plain (s ++ t) := by
  intro x member
  cases List.mem_append.1 member with
  | inl here => exact first x here
  | inr later => exact second x later

theorem Plain.feed_not_mem (plain : Plain s) : '\n' ∉ s :=
  fun member => (plain '\n' member).2.2 rfl

theorem Plain.rest? (plain : Plain s) : Continuation.rest? s = none :=
  rest?_of_feed_not_mem plain.feed_not_mem

theorem Plain.not_newline (plain : Plain s) : ¬atNewline s := by
  intro newline
  rcases atNewline_iff.1 newline with ⟨t, rfl | rfl⟩
  · exact plain.feed_not_mem List.mem_cons_self
  · exact plain.feed_not_mem (List.mem_cons_of_mem _ List.mem_cons_self)

theorem takeWhile_congr {p q : Char → Bool} (same : ∀ x ∈ s, p x = q x) :
    s.takeWhile p = s.takeWhile q := by
  induction s with
  | nil => rfl
  | cons x s ih =>
      rw [List.takeWhile_cons, List.takeWhile_cons, same x List.mem_cons_self,
        ih fun y member => same y (List.mem_cons_of_mem x member)]

/-- The spaces between the parts of a message are those between the words of a command. -/
theorem skipSpace_eq_json (plain : Plain c.rest) : skipSpace c = Json.skipSpace c := by
  have none := (plain.of_reaches (c.reaches_skipWhile isBlank)).rest?
  have same : ∀ x ∈ c.rest, isBlank x = Json.isSpace x := by
    intro x member
    rcases plain x member with ⟨noTab, noReturn, noFeed⟩
    apply Bool.eq_iff_iff.2
    simp [isBlank, Json.isSpace, noTab, noReturn, noFeed]
  rw [skipSpace_eq, none]
  simp only
  rw [Cursor.skipWhile, takeWhile_congr same]
  rfl

theorem reaches_json_skipSpace (c : Cursor) : c.Reaches (Json.skipSpace c) :=
  c.reaches_skipWhile Json.isSpace

theorem skipSpace_of_head' {x : Char} {t : List Char} (split : c.rest = x :: t)
    (ink : Json.isSpace x = false) : Json.skipSpace c = c := by
  rw [Json.skipSpace, Cursor.skipWhile, split, List.takeWhile_cons_of_neg (by simp [ink])]
  rfl

end
end ChatPreview
