import ChatPreview.Proofs.Component.Formats
import Mathlib.Data.List.Induction

namespace ChatPreview
open Text

/-! ## Numbers in decimal digits -/

/-- A positive number in decimal digits, with no zero in front. -/
structure Numeral (digits : List Char) : Prop where
  nonempty : digits ≠ []
  positive : digits.head? ≠ some '0'
  digit : ∀ x ∈ digits, x.isDigit

section
variable {digits : List Char} {n : Nat}

theorem digitChar_of_isDigit {x : Char} (digit : x.isDigit) :
    x.toNat - '0'.toNat < 10 ∧ (x.toNat - '0'.toNat).digitChar = x := by
  rw [Char.isDigit_iff_toNat] at digit
  obtain ⟨low, high⟩ := digit
  change 48 ≤ x.toNat at low
  change x.toNat ≤ 57 at high
  have less : x.toNat - 48 < 10 := by omega
  refine ⟨less, ?_⟩
  have same := Nat.toNat_digitChar_sub_48_of_lt_ten less
  have digit : (x.toNat - 48).digitChar.isDigit := by
    rw [Nat.isDigit_digitChar, decide_eq_true less]
  have low' : 48 ≤ (x.toNat - 48).digitChar.toNat := (Char.isDigit_iff_toNat.1 digit).1
  apply Char.toNat_inj.1
  change (x.toNat - 48).digitChar.toNat = x.toNat
  omega

theorem digitsValue_concat (digits : List Char) (x : Char) :
    digitsValue (digits ++ [x]) = 10 * digitsValue digits + (x.toNat - '0'.toNat) := by
  rw [digitsValue, List.foldl_append]
  rfl

theorem Numeral.toDigits_digitsValue (numeral : Numeral digits) :
    0 < digitsValue digits ∧ Nat.toDigits 10 (digitsValue digits) = digits := by
  induction digits using List.reverseRecOn with
  | nil => exact absurd rfl numeral.nonempty
  | append_singleton digits x ih =>
      obtain ⟨less, same⟩ := digitChar_of_isDigit (numeral.digit x (by simp))
      rw [digitsValue_concat]
      cases digits with
      | nil =>
          have some' : x.toNat - '0'.toNat ≠ 0 := by
            intro zero
            rw [zero] at same
            exact numeral.positive (congrArg some same.symm)
          rw [show digitsValue [] = 0 from rfl, Nat.mul_zero, Nat.zero_add,
            Nat.toDigits_of_lt_base less, same]
          exact ⟨Nat.pos_of_ne_zero some', rfl⟩
      | cons y digits =>
          have first : Numeral (y :: digits) :=
            ⟨List.cons_ne_nil y digits, numeral.positive,
              fun z member => numeral.digit z (List.mem_append_left [x] member)⟩
          obtain ⟨positive, written⟩ := ih first
          have joined := Nat.toDigits_append_toDigits (by decide : 1 < 10) positive less
          rw [written, Nat.toDigits_of_lt_base less, same] at joined
          exact ⟨by omega, joined.symm⟩

theorem numeral_toDigits (positive : 0 < n) : Numeral (Nat.toDigits 10 n) := by
  refine ⟨Nat.toDigits_ne_nil, ?_, fun x => Nat.isDigit_of_mem_toDigits (by decide) (by decide)⟩
  induction n using Nat.strongRecOn with
  | ind n ih =>
      by_cases less : n < 10
      · rw [Nat.toDigits_of_lt_base less]
        intro zero
        have := Nat.digitChar_eq_zero.1 (Option.some.inj zero)
        omega
      · have first := ih (n / 10) (by omega) (by omega)
        rw [List.head?_eq_some_head Nat.toDigits_ne_nil] at first
        rwa [Nat.toDigits_of_base_le (by decide) (Nat.le_of_not_lt less), List.head?_append,
          List.head?_eq_some_head Nat.toDigits_ne_nil, Option.some_or]

theorem digitsValue_toDigits (n : Nat) : digitsValue (Nat.toDigits 10 n) = n := by
  rw [digitsValue, ← Nat.ofDigitChars_eq_foldl, Nat.ofDigitChars_ten_toDigits]

theorem readDigits_of_le (short : digits.length ≤ maxDigits) :
    readDigits digits = .ok (digitsValue digits) := by
  rw [readDigits, if_neg (Nat.not_lt_of_le short)]

end

namespace Format

/-! ## Markers -/

def Piece.written : Piece → Text
  | .char p => [p]
  | .next => ofString "%s"
  | .nth digits => .scalar '%' :: (ofChars digits ++ ofString "$s")

def written (ps : List Piece) : Text := ps.flatMap Piece.written

inductive Marks : Piece → Text → Prop where
  | next : Marks .next (ofString "s")
  | nth {digits : List Char} (numeral : Numeral digits) :
      Marks (.nth digits) (ofChars digits ++ ofString "$s")

section
variable {t u v rest body : Text} {piece : Piece} {ps : List Piece} {digits : List Char}

theorem marker_eq (n : Nat) : marker n = Piece.written (.nth (Nat.toDigits 10 n)) := by
  have digits : (toString n).toList = Nat.toDigits 10 n := by
    rw [Nat.toString_eq_repr, Nat.toList_repr]
  simp only [marker, ofString, ofChars, String.toList_append, digits, List.map_append]
  rfl

theorem Marks.written_eq (marks : Marks piece body) : piece.written = .scalar '%' :: body := by
  cases marks <;> rfl

theorem Marks.percent_not_mem (marks : Marks piece body) : .scalar '%' ∉ body := by
  cases marks with
  | next => decide
  | nth numeral =>
      rw [List.mem_append, not_or]
      refine ⟨?_, by decide⟩
      intro member
      obtain ⟨x, inside, same⟩ := List.mem_map.1 member
      cases same
      cases numeral.digit '%' inside

theorem numeral_of_numbered? (found : numbered? t = some (digits, rest)) : Numeral digits := by
  obtain ⟨_, all⟩ := numbered?_spec found
  unfold numbered? at found
  simp only at found
  split at found
  · rename_i d _ _ leading _
    split at found
    · cases found
    · rename_i positive
      cases found
      rw [leading] at all ⊢
      exact ⟨List.cons_ne_nil _ _, fun same => positive (Option.some.inj same), all⟩
  · cases found

theorem marker?_eq_some :
    marker? t = some (piece, rest) ↔ ∃ body, Marks piece body ∧ t = body ++ rest := by
  constructor
  · intro found
    unfold marker? at found
    split at found
    · cases found
    · split at found
      · rename_i same
        cases found
        exact ⟨_, .next, by rw [same]; rfl⟩
      · obtain ⟨⟨digits, after⟩, number, same⟩ := Option.map_eq_some_iff.1 found
        cases same
        have split := (numbered?_spec number).1
        exact ⟨_, .nth (numeral_of_numbered? number), by simp [split, ofString, ofChars]⟩
  · rintro ⟨body, marks, rfl⟩
    cases marks with
    | next => rfl
    | nth numeral =>
        obtain ⟨x, digits, rfl⟩ := List.exists_cons_of_ne_nil numeral.nonempty
        have positive : x ≠ '0' := fun same => numeral.positive (congrArg some same)
        have found := marker?_marker numeral.digit positive rest
        rw [← found]
        simp [ofString, ofChars]

theorem marker?_of_marks (marks : Marks piece body) (rest : Text) :
    marker? (body ++ rest) = some (piece, rest) := marker?_eq_some.2 ⟨body, marks, rfl⟩

theorem marker?_append_eq_none (stop : ∀ p ∈ v.head?, p = .scalar '%') :
    marker? (u ++ v) = none ↔ marker? u = none := by
  constructor
  · intro free
    by_contra found
    obtain ⟨⟨piece, rest⟩, found⟩ := Option.ne_none_iff_exists'.1 found
    obtain ⟨body, marks, rfl⟩ := marker?_eq_some.1 found
    rw [List.append_assoc, marker?_of_marks marks] at free
    cases free
  · intro free
    by_contra found
    obtain ⟨⟨piece, rest⟩, found⟩ := Option.ne_none_iff_exists'.1 found
    obtain ⟨body, marks, split⟩ := marker?_eq_some.1 found
    rcases List.append_eq_append_iff.1 split with ⟨w, rfl, tail⟩ | ⟨w, rfl, _⟩
    · cases w with
      | nil =>
          rw [List.append_nil] at marks
          have := marker?_of_marks marks []
          rw [List.append_nil, free] at this
          cases this
      | cons p w =>
          rw [tail] at stop
          cases stop p rfl
          exact marks.percent_not_mem (List.mem_append_right u List.mem_cons_self)
    · rw [marker?_of_marks marks] at free
      cases free

/-! ## Pieces that are written and read back -/

/-- Pieces none of whose percent signs starts a marker. -/
inductive Scanned : List Piece → Prop where
  | nil : Scanned []
  | char {p : CodePoint} {ps : List Piece} (free : p = .scalar '%' → marker? (written ps) = none)
      (rest : Scanned ps) : Scanned (.char p :: ps)
  | marker {piece : Piece} {body : Text} {ps : List Piece} (marks : Marks piece body)
      (rest : Scanned ps) : Scanned (piece :: ps)

theorem written_cons (piece : Piece) (ps : List Piece) :
    written (piece :: ps) = piece.written ++ written ps := rfl

theorem written_append_chars (t : Text) (ps : List Piece) :
    written (t.map .char ++ ps) = t ++ written ps := by
  rw [written, List.flatMap_append, List.flatMap_map]
  exact congrArg (· ++ written ps) (List.flatMap_singleton' t)

theorem pieces_nil : pieces [] = [] := by rw [pieces]

theorem pieces_of_some (found : marker? t = some (piece, rest)) :
    pieces (.scalar '%' :: t) = piece :: pieces rest := by
  rw [pieces, if_pos rfl]
  split
  · rename_i other
    rw [found] at other
    cases other
    rfl
  · rename_i other
    rw [found] at other
    cases other

theorem pieces_cons {p : CodePoint} (free : p = .scalar '%' → marker? t = none) :
    pieces (p :: t) = .char p :: pieces t := by
  rw [pieces]
  split
  · rename_i percent
    split
    · rename_i other
      rw [free percent] at other
      cases other
    · rw [percent]
  · rfl

theorem pieces_written (scanned : Scanned ps) : pieces (written ps) = ps := by
  induction scanned with
  | nil => exact pieces_nil
  | @char p ps free _ ih =>
      change pieces (p :: written ps) = _
      rw [pieces_cons free, ih]
  | marker marks _ ih =>
      rw [written_cons, marks.written_eq, List.cons_append,
        pieces_of_some (marker?_of_marks marks _), ih]

/-- A format is the text of its pieces. -/
theorem scanned_pieces (t : Text) : Scanned (pieces t) ∧ written (pieces t) = t := by
  fun_induction pieces t with
  | case1 => exact ⟨.nil, rfl⟩
  | case2 t piece rest found ih =>
      obtain ⟨body, marks, rfl⟩ := marker?_eq_some.1 found
      exact ⟨.marker marks ih.1, by rw [written_cons, ih.2, marks.written_eq]; rfl⟩
  | case3 t free ih =>
      have kept : marker? (written (pieces t)) = none := by rw [ih.2, free]
      exact ⟨.char (fun _ => kept) ih.1, by rw [written_cons, ih.2]; rfl⟩
  | case4 p t other ih =>
      exact ⟨.char (fun same => absurd same other) ih.1, by rw [written_cons, ih.2]; rfl⟩

theorem Scanned.tail (scanned : Scanned (piece :: ps)) : Scanned ps := by
  cases scanned with
  | char _ rest => exact rest
  | marker _ rest => exact rest

theorem Scanned.of_append {before after : List Piece} (scanned : Scanned (before ++ after)) :
    Scanned after := by
  induction before with
  | nil => exact scanned
  | cons piece before ih => exact ih scanned.tail

theorem Scanned.free_of_percent (scanned : Scanned (.char (.scalar '%') :: ps)) :
    marker? (written ps) = none := by
  cases scanned with
  | char free => exact free rfl
  | marker marks => cases marks

theorem Scanned.numeral (scanned : Scanned (.nth digits :: ps)) : Numeral digits := by
  cases scanned with
  | marker marks =>
      cases marks with
      | nth numeral => exact numeral

theorem fill_nth {args : List Text} {rank : Nat} (short : digits.length ≤ maxDigits) :
    fill args rank (.nth digits :: ps) =
      fill args rank ps >>= fun t => pure (argument args (digitsValue digits - 1) ++ t) := by
  rw [fill, readDigits_of_le short]
  rfl

end
end Format
end ChatPreview
