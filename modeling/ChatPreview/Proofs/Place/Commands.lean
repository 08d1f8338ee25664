import ChatPreview.Proofs.Line.Commands

namespace ChatPreview
open Text Scan

/-- Spans one after another, from an offset on to another, with a character between any two. -/
structure Separate (first last : Nat) (cs : List Command) : Prop where
  inside : ∀ c ∈ cs, first ≤ c.position ∧ c.position ≤ c.stop ∧ c.stop ≤ last
  ordered : cs.Pairwise fun c d => c.stop < d.position

theorem Separate.cons {p q : Nat} {text : List Char} {c : Command} {cs : List Command}
    (spans : Spans p text c) (later : Separate (p + text.length + 1) q cs)
    (before : p + text.length ≤ q) : Separate p q (c :: cs) := by
  have bounds := spans.within
  constructor
  · intro d member
    rcases List.mem_cons.mp member with rfl | further
    · omega
    · have inside := later.inside d further
      omega
  · apply List.pairwise_cons.mpr
    constructor
    · intro d further
      have inside := later.inside d further
      omega
    · exact later.ordered

theorem commandsFrom_separate (limit : Int) {source : List Char} {ls : List (List Char)}
    (lines : Lines source ls) (p : Nat) :
    Separate p (p + source.length) (commandsFrom limit ⟨p, source⟩) := by
  induction lines generalizing p with
  | none =>
      rw [commandsFrom_nil]
      exact ⟨by simp, .nil⟩
  | @last text nonempty unbroken =>
      obtain ⟨c, q, spans, read⟩ := Command.read_last limit p unbroken
      rw [commandsFrom_of_read nonempty read, commandsFrom_nil]
      exact .cons spans ⟨by simp, .nil⟩ (Nat.le_refl _)
  | @more text s ls unbroken ends rest ih =>
      obtain ⟨c, spans, read⟩ := Command.read_line limit p unbroken ends
      have inside : (⟨p, text ++ '\n' :: s⟩ : Cursor).rest ≠ [] := by simp
      have later := ih (p + text.length + 1)
      have length : p + text.length + 1 + s.length = p + (text ++ '\n' :: s).length := by
        rw [List.length_append, List.length_cons]
        omega
      rw [length] at later
      rw [commandsFrom_of_read inside (read s)]
      apply Separate.cons spans later
      omega

/-- The spans of the commands of a source. -/
theorem commands_separate (source : List Char) : Separate 0 source.length (commands source) := by
  obtain ⟨ls, lines⟩ := exists_lines source
  have separate := commandsFrom_separate nestingLimit.toNat lines 0
  rw [Nat.zero_add] at separate
  exact separate

end ChatPreview
