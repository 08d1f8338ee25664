import ChatPreview.Proofs.Message.Plain

namespace ChatPreview.Json
open Text Scan Token

/-! ## Strings -/

section
variable {opening pos : Nat} {s t : List Char}

theorem not_mark_of_hexDigit {x : Char} {n : Nat} (digit : hexDigit? x = some n) :
    x ≠ '\\' ∧ x ≠ '"' := by
  constructor
  · rintro rfl
    cases digit
  · rintro rfl
    cases digit

theorem hexDigit_of_hexValue {digits : List Char} {n : Nat} (value : hexValue? digits = some n) :
    ∀ x ∈ digits, ∃ d, hexDigit? x = some d := by
  rw [hexValue?] at value
  generalize (0 : Nat) = start at value
  induction digits generalizing start with
  | nil => simp
  | cons x digits ih =>
      rw [List.foldlM_cons] at value
      rcases Option.bind_eq_some_iff.1 value with ⟨m, first, rest⟩
      rcases Option.map_eq_some_iff.1 first with ⟨d, digit, _⟩
      intro y member
      rcases List.mem_cons.1 member with rfl | later
      · exact ⟨d, digit⟩
      · exact ih m rest y later

theorem not_mark_of_hexValue {digits : List Char} {n : Nat} (value : hexValue? digits = some n) :
    ∀ x ∈ digits, x ≠ '\\' ∧ x ≠ '"' := by
  intro x member
  obtain ⟨d, digit⟩ := hexDigit_of_hexValue value x member
  exact not_mark_of_hexDigit digit

theorem afterString?_append_left (run : List Char) (plain : Plain (run ++ s))
    (clear : ∀ x ∈ run, x ≠ '\\' ∧ x ≠ '"') :
    afterString? '"' (run ++ s) = afterString? '"' s := by
  induction run with
  | nil => rfl
  | cons x run ih =>
      rcases clear x List.mem_cons_self with ⟨noBackslash, noQuote⟩
      rw [List.cons_append] at plain ⊢
      rw [afterString?_cons plain.rest? plain.not_newline, if_neg noBackslash, if_neg noQuote]
      apply ih (plain.of_suffix (List.suffix_cons x _))
      intro y member
      exact clear y (List.mem_cons_of_mem x member)

theorem afterString?_hex {n : Nat} (plain : Plain s) (value : hexValue? (s.take 4) = some n) :
    afterString? '"' s = afterString? '"' (s.drop 4) := by
  have split := List.take_append_drop 4 s
  have clear := not_mark_of_hexValue value
  generalize s.take 4 = digits at split clear
  rw [← split] at plain
  have passed := afterString?_append_left digits plain clear
  rwa [split] at passed

theorem nextEscape?_eq_some {digits : List Char} (next : nextEscape? s = some digits) :
    ∃ w, s = '\\' :: 'u' :: w ∧ 4 < w.length ∧ digits = w.take 4 := by
  rw [nextEscape?] at next
  split at next
  · rename_i escape
    cases next
    match s, escape with
    | [], ⟨_, length⟩ => simp at length
    | [x], ⟨_, length⟩ => simp at length
    | x :: y :: w, ⟨mark, length⟩ =>
        cases mark
        refine ⟨w, rfl, ?_, rfl⟩
        simp only [List.length_cons] at length
        omega
  · cases next

theorem afterString?_pair {w : List Char} {n : Nat} (plain : Plain s)
    (first : afterString? '"' s = afterString? '"' (s.drop 4)) (next : s.drop 4 = '\\' :: 'u' :: w)
    (low : hexValue? (w.take 4) = some n) : afterString? '"' s = afterString? '"' (s.drop 10) := by
  have tail : Plain ('\\' :: 'u' :: w) := next ▸ plain.of_suffix (List.drop_suffix 4 s)
  have inner : Plain w := tail.of_suffix ((List.suffix_cons 'u' w).trans (List.suffix_cons _ _))
  have last : s.drop 10 = w.drop 4 := by
    calc
      s.drop 10 = (s.drop 4).drop 6 := by rw [List.drop_drop]
      _ = w.drop 4 := by rw [next]; rfl
  calc
    afterString? '"' s = afterString? '"' ('\\' :: 'u' :: w) := by rw [first, next]
    _ = afterString? '"' w := by
      rw [afterString?_cons tail.rest? tail.not_newline, if_pos rfl]
      rfl
    _ = afterString? '"' (w.drop 4) := afterString?_hex inner low
    _ = afterString? '"' (s.drop 10) := by rw [last]

theorem readNumeric_spec {p : CodePoint} {n : Nat} (read : readNumeric pos s = .ok (p, n))
    (plain : Plain s) : n ≤ s.length + 1 ∧ 1 ≤ n ∧
      afterString? '"' s = afterString? '"' (s.drop (n - 1)) := by
  rw [readNumeric] at read
  split at read
  · cases read
  · rename_i long
    split at read
    · cases read
    · rename_i value
      have first := afterString?_hex plain value
      have short : 5 ≤ s.length + 1 ∧ 1 ≤ 5 ∧ afterString? '"' s = afterString? '"' (s.drop 4) :=
        ⟨by omega, by omega, first⟩
      split at read
      · cases read
        exact short
      · split at read
        · cases read
          exact short
        · rename_i digits next
          rcases nextEscape?_eq_some next with ⟨w, tail, length, rfl⟩
          split at read
          · cases read
          · rename_i low
            split at read
            · have same : 11 = n := (Prod.mk.inj (Except.ok.inj read)).2
              subst same
              have whole := congrArg List.length tail
              rw [List.length_drop, List.length_cons, List.length_cons] at whole
              exact ⟨by omega, by omega, afterString?_pair plain first tail low⟩
            · cases read
              exact short

theorem readEscape_spec {p : CodePoint} {n : Nat} (read : readEscape opening pos s = .ok (p, n))
    (plain : Plain s) :
    n ≤ s.length ∧ afterString? '"' (s.drop 1) = afterString? '"' (s.drop n) := by
  cases s with
  | nil => cases read
  | cons x s =>
      rw [readEscape] at read
      split at read
      · rcases readNumeric_spec read (plain.of_suffix (List.suffix_cons x s)) with
          ⟨length, positive, passed⟩
        refine ⟨length, ?_⟩
        rw [show n = (n - 1) + 1 by omega, List.drop_succ_cons, List.drop_succ_cons, List.drop_zero]
        exact passed
      · split at read
        · cases read
          exact ⟨Nat.succ_le_succ (Nat.zero_le _), rfl⟩
        · cases read

theorem more_eq_ok {p : CodePoint} {r : Read Text} {u : Text} {d : Cursor}
    (read : more p r = .ok (u, d)) : ∃ v, r = .ok (v, d) := by
  cases r with
  | error e => cases read
  | ok got =>
      rcases got with ⟨v, d'⟩
      cases read
      exact ⟨v, rfl⟩

theorem map_eq_ok {α β : Type} {r : Read α} {f : α × Cursor → β} {b : β} (read : r.map f = .ok b) :
    ∃ a, r = .ok a ∧ f a = b := by
  cases r with
  | error e => cases read
  | ok a => exact ⟨a, rfl, Except.ok.inj read⟩

/-- A string that is read as part of a message closes there in a command too. -/
theorem readString_spec {u : Text} {d : Cursor} (read : readString opening pos s = .ok (u, d))
    (plain : Plain s) : afterString? '"' s = some d.rest ∧ (⟨pos, s⟩ : Cursor).Reaches d := by
  fun_induction readString opening pos s generalizing u with
  | case1 => cases read
  | case2 pos s =>
      cases read
      rw [afterString?_cons plain.rest? plain.not_newline, if_neg (by decide), if_pos rfl]
      exact ⟨rfl, Cursor.reaches_advance (c := ⟨pos, '"' :: s⟩) (n := 1) (by simp)⟩
  | case3 => cases read
  | case4 pos s p n escape _ ih =>
      rcases more_eq_ok read with ⟨v, inner⟩
      have tail := plain.of_suffix (List.suffix_cons '\\' s)
      rcases readEscape_spec escape tail with ⟨length, passed⟩
      rcases ih inner (tail.of_suffix (List.drop_suffix n s)) with ⟨closed, ahead⟩
      rw [afterString?_cons plain.rest? plain.not_newline, if_pos rfl, passed, closed]
      have first : (⟨pos, '\\' :: s⟩ : Cursor).Reaches ⟨pos + 1 + n, s.drop n⟩ := by
        have moved := Cursor.reaches_advance (c := ⟨pos, '\\' :: s⟩) (n := 1 + n)
          (by rw [List.length_cons]; omega)
        rwa [Cursor.advance, Nat.add_comm 1 n, List.drop_succ_cons, ← Nat.add_assoc,
          Nat.add_right_comm] at moved
      exact ⟨rfl, first.trans ahead⟩
  | case5 => cases read
  | case6 pos c s noQuote noBackslash _ ih =>
      rcases more_eq_ok read with ⟨v, inner⟩
      rcases ih inner (plain.of_suffix (List.suffix_cons c s)) with ⟨closed, ahead⟩
      rw [afterString?_cons plain.rest? plain.not_newline, if_neg noBackslash, if_neg noQuote, closed]
      have first := Cursor.reaches_advance (c := ⟨pos, c :: s⟩) (n := 1) (by simp)
      exact ⟨rfl, first.trans ahead⟩

end
/-! ## Numbers and names -/

def inAtom (x : Char) : Bool := x.isAlphanum || x == '-' || x == '+' || x == '.'

theorem inAtom_of_isDigit {x : Char} (digit : x.isDigit) : inAtom x := by
  simp [inAtom, Char.isAlphanum, digit]

section
variable {s : List Char} {c d : Cursor}

theorem wholeDigits_spec (s : List Char) :
    wholeDigits s <+: s ∧ ∀ x ∈ wholeDigits s, inAtom x := by
  rw [wholeDigits.eq_def]
  split
  · refine ⟨⟨_, rfl⟩, fun x member => ?_⟩
    rw [List.mem_singleton.1 member]
    rfl
  · exact ⟨List.takeWhile_prefix _, fun x member =>
      inAtom_of_isDigit (List.all_eq_true.1 List.all_takeWhile x member)⟩

theorem fraction_spec (nonempty : fractionDigits s ≠ []) :
    '.' :: fractionDigits s <+: s ∧ ∀ x ∈ '.' :: fractionDigits s, inAtom x := by
  rw [fractionDigits.eq_def] at nonempty ⊢
  split at nonempty
  · rename_i t
    refine ⟨List.cons_prefix_cons.2 ⟨rfl, List.takeWhile_prefix _⟩, fun x member => ?_⟩
    rcases List.mem_cons.1 member with rfl | digit
    · rfl
    · exact inAtom_of_isDigit (List.all_eq_true.1 List.all_takeWhile x digit)
  · exact absurd rfl nonempty

theorem sign_spec (s : List Char) : ((s.take 1).filter fun x => x == '+' || x == '-') <+: s ∧
    ∀ x ∈ (s.take 1).filter fun x => x == '+' || x == '-', inAtom x := by
  constructor
  · cases s with
    | nil => exact List.nil_prefix
    | cons x s =>
        rw [List.take_succ_cons, List.take_zero, List.filter_cons]
        split
        · exact ⟨s, rfl⟩
        · exact List.nil_prefix
  · intro x member
    have sign := (List.mem_filter.1 member).2
    rw [Bool.or_eq_true, beq_iff_eq, beq_iff_eq] at sign
    rcases sign with rfl | rfl <;> rfl

theorem exponent?_spec {n : Nat} {k : Int} (found : exponent? s = some (n, k)) :
    ∃ run, run <+: s ∧ run.length = n ∧ ∀ x ∈ run, inAtom x := by
  cases s with
  | nil => cases found
  | cons e s =>
      rw [exponent?] at found
      split at found
      · rename_i mark
        rcases sign_spec s with ⟨⟨t, split⟩, signs⟩
        simp only at found
        generalize (s.take 1).filter (fun x => x == '+' || x == '-') = sign at found split signs
        split at found
        · cases found
        · cases found
          have digits := List.takeWhile_prefix (p := Char.isDigit) (l := t)
          rw [← split, List.drop_left]
          refine ⟨e :: (sign ++ t.takeWhile Char.isDigit), ?_, ?_, fun x member => ?_⟩
          · exact List.cons_prefix_cons.2 ⟨rfl, (List.prefix_append_right_inj sign).2 digits⟩
          · rw [List.length_cons, List.length_append]
            omega
          · rcases List.mem_cons.1 member with rfl | later
            · rcases mark with rfl | rfl <;> rfl
            · rcases List.mem_append.1 later with inSign | inDigits
              · exact signs x inSign
              · exact inAtom_of_isDigit (List.all_eq_true.1 List.all_takeWhile x inDigits)
      · cases found

theorem sign_runs (c : Cursor) :
    Runs inAtom c (if c.rest.head? == some '-' then c.advance 1 else c) := by
  split
  · rename_i minus
    rcases List.head?_eq_some_iff.1 (beq_iff_eq.1 minus) with ⟨s, split⟩
    have first : ['-'] <+: c.rest := ⟨s, split.symm⟩
    exact .advance first (by simp [inAtom])
  · exact .refl c

theorem fraction_runs (c : Cursor) : Runs inAtom c
    (if (fractionDigits c.rest).isEmpty then c
      else c.advance ((fractionDigits c.rest).length + 1)) := by
  split
  · exact .refl c
  · rename_i some'
    rcases fraction_spec (List.isEmpty_eq_false_iff.1 (Bool.eq_false_iff.2 some')) with
      ⟨point, digits⟩
    exact .advance point digits

theorem readNumber_runs {v : Value} (read : readNumber c = .ok (v, d)) :
    Runs inAtom c d ∧ c.pos < d.pos := by
  rw [readNumber] at read
  simp only at read
  have sign := sign_runs c
  generalize (if c.rest.head? == some '-' then c.advance 1 else c) = unsigned at read sign
  split at read
  · cases read
  · rename_i nonempty
    rcases wholeDigits_spec unsigned.rest with ⟨whole, digits⟩
    have first := sign.trans (.advance whole digits)
    have further : c.pos < (unsigned.advance (wholeDigits unsigned.rest).length).pos := by
      have := sign.reaches.pos_le
      have := List.length_pos_iff.2 (List.isEmpty_eq_false_iff.1 (Bool.eq_false_iff.2 nonempty))
      simp only [Cursor.advance]
      omega
    generalize unsigned.advance (wholeDigits unsigned.rest).length = c₁ at read first further
    have second := fraction_runs c₁
    generalize (if (fractionDigits c₁.rest).isEmpty then c₁
        else c₁.advance ((fractionDigits c₁.rest).length + 1)) = c₂ at read second
    have whole := first.trans second
    have beyond : c.pos < c₂.pos := Nat.lt_of_lt_of_le further second.reaches.pos_le
    split at read
    · rename_i found
      cases read
      rcases exponent?_spec found with ⟨run, ahead, rfl, all⟩
      have last := Runs.advance ahead all
      exact ⟨whole.trans last, Nat.lt_of_lt_of_le beyond last.reaches.pos_le⟩
    · split at read
      · cases read
        exact ⟨whole, beyond⟩
      · split at read
        · cases read
          exact ⟨whole, beyond⟩
        · cases read

theorem literals_inAtom {word : List Char} {v : Value} (listed : (word, v) ∈ literals) :
    word ≠ [] ∧ ∀ x ∈ word, inAtom x := by
  have each : literals.all fun literal => !literal.1.isEmpty && literal.1.all inAtom := by rfl
  have this := List.all_eq_true.1 each _ listed
  rw [Bool.and_eq_true] at this
  refine ⟨?_, List.all_eq_true.1 this.2⟩
  simpa using this.1

end

end ChatPreview.Json
