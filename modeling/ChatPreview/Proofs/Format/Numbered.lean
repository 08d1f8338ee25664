import ChatPreview.Proofs.Format.Markers
import Mathlib.Algebra.Group.Nat.Defs

namespace ChatPreview
open Text

namespace Format

/-- Pieces with all their markers numbered, where `rank` unnumbered ones come before them. -/
def numberFrom : Nat → List Piece → List Piece
  | _, [] => []
  | rank, .char p :: ps => .char p :: numberFrom rank ps
  | rank, .next :: ps => .nth (Nat.toDigits 10 (rank + 1)) :: numberFrom (rank + 1) ps
  | rank, .nth digits :: ps => .nth digits :: numberFrom rank ps

def unnumbered (format : Text) : Nat := (pieces format).count .next

section
variable {ps : List Piece} {rank : Nat} {args : List Text}

theorem exists_written_numberFrom (rank : Nat) (ps : List Piece) :
    ∃ u v v', written ps = u ++ v ∧ written (numberFrom rank ps) = u ++ v' ∧
      (∀ p ∈ v.head?, p = .scalar '%') ∧ ∀ p ∈ v'.head?, p = .scalar '%' := by
  have percent (t : Text) : ∀ p ∈ (CodePoint.scalar '%' :: t).head?, p = .scalar '%' :=
    fun p first => (Option.some.inj first).symm
  cases ps with
  | nil => exact ⟨[], [], [], rfl, rfl, by simp, by simp⟩
  | cons piece ps =>
      cases piece with
      | char p =>
          obtain ⟨u, v, v', before, after, stop, stop'⟩ := exists_written_numberFrom rank ps
          refine ⟨p :: u, v, v', ?_, ?_, stop, stop'⟩
          · rw [written_cons, before]
            rfl
          · rw [numberFrom, written_cons, after]
            rfl
      | next => exact ⟨[], _, _, rfl, rfl, percent _, percent _⟩
      | nth digits => exact ⟨[], _, _, rfl, rfl, percent _, percent _⟩

theorem marker?_numberFrom (rank : Nat) (free : marker? (written ps) = none) :
    marker? (written (numberFrom rank ps)) = none := by
  obtain ⟨u, v, v', before, after, stop, stop'⟩ := exists_written_numberFrom rank ps
  rw [before, marker?_append_eq_none stop] at free
  rw [after, marker?_append_eq_none stop', free]

/-- A marker with its number joins no text around it into another one. -/
theorem Scanned.numberFrom (scanned : Scanned ps) (rank : Nat) :
    Scanned (numberFrom rank ps) := by
  induction scanned generalizing rank with
  | nil => exact .nil
  | char free _ ih => exact .char (fun percent => marker?_numberFrom rank (free percent)) (ih rank)
  | marker marks _ ih =>
      cases marks with
      | next => exact .marker (.nth (numeral_toDigits rank.succ_pos)) (ih (rank + 1))
      | nth numeral => exact .marker (.nth numeral) (ih rank)

theorem argument_nil (index : Nat) :
    argument [] index = Piece.written (.nth (Nat.toDigits 10 (index + 1))) := marker_eq (index + 1)

theorem fill_nil_args (scanned : Scanned ps) (rank : Nat)
    (short : ∀ digits ∈ ps.filterMap Piece.number?, digits.length ≤ maxDigits) :
    fill [] rank ps = .ok (written (numberFrom rank ps)) := by
  induction scanned generalizing rank with
  | nil => rfl
  | char _ _ ih =>
      rw [fill, ih rank short]
      rfl
  | marker marks _ ih =>
      cases marks with
      | next =>
          rw [fill, ih (rank + 1) short, argument_nil]
          rfl
      | nth numeral =>
          obtain ⟨positive, same⟩ := numeral.toDigits_digitsValue
          rw [fill_nth (short _ List.mem_cons_self), argument_nil, Nat.sub_add_cancel positive,
            same, ih rank fun digits member => short digits (List.mem_cons_of_mem _ member)]
          rfl

theorem fill_numberFrom (args : List Text) (next rank : Nat)
    (ranks : rank + ps.count .next < 10 ^ maxDigits) :
    fill args next (numberFrom rank ps) = fill args rank ps := by
  induction ps generalizing rank with
  | nil => rfl
  | cons piece ps ih =>
      cases piece with
      | char p =>
          rw [List.count_cons_of_ne (by simp)] at ranks
          rw [numberFrom, fill, fill, ih rank ranks]
      | nth digits =>
          rw [List.count_cons_of_ne (by simp)] at ranks
          rw [numberFrom, fill, fill, ih rank ranks]
      | next =>
          rw [List.count_cons_self] at ranks
          have short : (Nat.toDigits 10 (rank + 1)).length ≤ maxDigits :=
            (Nat.length_toDigits_le_iff (by decide) (by decide)).2 (by omega)
          rw [numberFrom, fill_nth short, digitsValue_toDigits, ih (rank + 1) (by omega)]
          rfl

end

theorem length_le_written (ps : List Piece) : ps.length ≤ (written ps).length := by
  induction ps with
  | nil => exact Nat.zero_le _
  | cons piece ps ih =>
      have some' : 0 < piece.written.length := by cases piece <;> exact Nat.succ_pos _
      rw [written_cons, List.length_append, List.length_cons]
      omega

theorem unnumbered_le_length (format : Text) : unnumbered format ≤ format.length := by
  have pieces := length_le_written (pieces format)
  rw [(scanned_pieces format).2] at pieces
  exact Nat.le_trans List.count_le_length pieces

theorem apply_numbered {format : Text}
    (short : ∀ digits ∈ numbers format, digits.length ≤ maxDigits)
    (ranks : unnumbered format < 10 ^ maxDigits) :
    ∃ numbered, apply format [] = .ok numbered ∧
      ∀ args, apply numbered args = apply format args := by
  have scanned := (scanned_pieces format).1
  refine ⟨_, fill_nil_args scanned 0 short, fun args => ?_⟩
  rw [apply, pieces_written (scanned.numberFrom 0)]
  exact fill_numberFrom args 0 0 (by rwa [Nat.zero_add])

end Format

namespace Component

/-- A text to be translated is translated the same with its markers numbered, whatever arguments it
has, and numbering it once more changes nothing. The numbers given must be short enough to be read
again, as those that the text has of its own: a text of fewer than `10 ^ maxDigits` characters gets
no longer ones. -/
theorem interpretBody_numbered {format : Text}
    (short : ∀ digits ∈ Format.numbers format, digits.length ≤ maxDigits)
    (ranks : Format.unnumbered format < 10 ^ maxDigits) :
    ∃ numbered, (∀ fallback, interpretBody (.translatable format none fallback) = .ok numbered) ∧
      (∀ args fallback, interpretBody (.translatable numbered args fallback) =
        interpretBody (.translatable format args fallback)) ∧
      ∀ fallback, interpretBody (.translatable numbered (some []) fallback) = .ok numbered := by
  obtain ⟨numbered, once, same⟩ := Format.apply_numbered short ranks
  refine ⟨numbered, fun _ => once, fun args fallback => ?_, fun _ => (same []).trans once⟩
  change (interpretArgs args >>= Format.apply numbered) = interpretArgs args >>= Format.apply format
  rw [funext same]

/-- A percent sign before a marker, a number of its own, and two markers in order. -/
theorem interpretBody_numbered_percent : let format := ofString "%%s of %1$s%5%s"
    (∀ digits ∈ Format.numbers format, digits.length ≤ maxDigits) ∧
      Format.unnumbered format < 10 ^ maxDigits ∧
      ∃ numbered, (∀ fallback, interpretBody (.translatable format none fallback) = .ok numbered) ∧
        (∀ args fallback, interpretBody (.translatable numbered args fallback) =
          interpretBody (.translatable format args fallback)) ∧
        ∀ fallback, interpretBody (.translatable numbered (some []) fallback) = .ok numbered := by
  intro format
  have short : ∀ digits ∈ Format.numbers format, digits.length ≤ maxDigits := by decide +kernel
  have ranks : Format.unnumbered format < 10 ^ maxDigits :=
    Nat.lt_of_le_of_lt (Format.unnumbered_le_length format) (by decide +kernel)
  exact ⟨short, ranks, interpretBody_numbered short ranks⟩

end Component
end ChatPreview
