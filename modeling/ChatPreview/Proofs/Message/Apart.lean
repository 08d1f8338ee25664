import ChatPreview.Proofs.Message.Leaf

namespace ChatPreview.Json
open Text Scan Token

/-- The text of a string after its opening quote, with its closing quote. -/
inductive Closing : List Char → Prop where
  | quote : Closing ['"']
  | escape {s : List Char} (x : Char) (rest : Closing s) : Closing ('\\' :: x :: s)
  | character {x : Char} {s : List Char} (noQuote : x ≠ '"') (noBackslash : x ≠ '\\')
      (rest : Closing s) : Closing (x :: s)

def Yields {α : Type} (r : Read α) (a : α) (s : List Char) : Prop := ∃ pos, r = .ok (a, ⟨pos, s⟩)

/-! ## Strings -/

section
variable {q q' r s t : List Char} {x : Char}

theorem Closing.append_left {run : List Char} (clear : ∀ x ∈ run, x ≠ '\\' ∧ x ≠ '"')
    (closing : Closing q) : Closing (run ++ q) := by
  induction run with
  | nil => exact closing
  | cons x run ih =>
      obtain ⟨noBackslash, noQuote⟩ := clear x List.mem_cons_self
      exact .character noQuote noBackslash (ih fun y member => clear y (List.mem_cons_of_mem x member))

theorem Closing.unique (first : Closing q) (second : Closing q') (same : q ++ s = q' ++ t) :
    q = q' ∧ s = t := by
  induction first generalizing q' with
  | quote =>
      cases second with
      | quote => exact ⟨rfl, (List.cons.inj same).2⟩
      | escape x rest => cases (List.cons.inj same).1
      | character noQuote _ _ => exact absurd (List.cons.inj same).1.symm noQuote
  | escape x rest ih =>
      cases second with
      | quote => cases (List.cons.inj same).1
      | escape y rest' =>
          obtain ⟨rfl, tail⟩ := List.cons.inj (List.cons.inj same).2
          obtain ⟨rfl, last⟩ := ih rest' tail
          exact ⟨rfl, last⟩
      | character _ noBackslash _ => exact absurd (List.cons.inj same).1.symm noBackslash
  | character noQuote noBackslash rest ih =>
      cases second with
      | quote => exact absurd (List.cons.inj same).1 noQuote
      | escape y rest' => exact absurd (List.cons.inj same).1 noBackslash
      | character _ _ rest' =>
          obtain ⟨rfl, tail⟩ := List.cons.inj same
          obtain ⟨rfl, last⟩ := ih rest' tail
          exact ⟨rfl, last⟩

/-- A text that is read as the rest of a string, whatever stands after it. -/
def Spells (q : List Char) (u : Text) : Prop :=
  ∀ opening pos s, Yields (readString opening pos (q ++ s)) u s

theorem Closing.ne_nil (closing : Closing q) : q ≠ [] := by
  cases closing <;> exact List.cons_ne_nil _ _

theorem readNumeric_cases {pos n : Nat} {p : CodePoint} (read : readNumeric pos s = .ok (p, n)) :
    4 < s.length ∧ (∃ k, hexValue? (s.take 4) = some k) ∧
      (n = 5 ∨ n = 11 ∧ ∃ digits m, nextEscape? (s.drop 4) = some digits ∧
        hexValue? digits = some m) := by
  rw [readNumeric] at read
  split at read
  · cases read
  · rename_i long
    split at read
    · cases read
    · rename_i k value
      refine ⟨by omega, ⟨k, value⟩, ?_⟩
      split at read
      · cases read
        exact .inl rfl
      · split at read
        · cases read
          exact .inl rfl
        · rename_i digits next
          split at read
          · cases read
          · rename_i m low
            split at read
            · exact .inr ⟨(Prod.mk.inj (Except.ok.inj read)).2.symm, digits, m, next, low⟩
            · cases read
              exact .inl rfl

theorem readNumeric_congr {pos pos' : Nat} {a : CodePoint × Nat} (read : readNumeric pos s = .ok a)
    (long : 4 < t.length) (digits : t.take 4 = s.take 4)
    (next : nextEscape? (t.drop 4) = nextEscape? (s.drop 4)) : readNumeric pos' t = .ok a := by
  have long' := (readNumeric_cases read).1
  rw [readNumeric, if_neg (by omega)] at read ⊢
  rw [digits, next]
  split at read
  · cases read
  · split at read
    · rename_i whole
      rw [if_pos whole]
      exact read
    · rename_i high
      rw [if_neg high]
      split at read
      · exact read
      · split at read
        · cases read
        · exact read

theorem nextEscape?_of_head (other : s.head? ≠ some '\\') : nextEscape? s = none := by
  rw [nextEscape?]
  split
  · rename_i mark
    cases s with
    | nil => cases mark.1
    | cons x s => exact absurd (congrArg some (List.cons.inj mark.1).1) other
  · rfl

theorem nextEscape?_append {u : Text} (closing : Closing q) (spells : Spells q u) (s : List Char) :
    nextEscape? (q ++ s) = nextEscape? q := by
  cases closing with
  | quote => rw [nextEscape?_of_head (by simp), nextEscape?_of_head (by simp)]
  | character _ noBackslash _ =>
      rw [nextEscape?_of_head (by simpa using noBackslash),
        nextEscape?_of_head (by simpa using noBackslash)]
  | @escape w x rest =>
      by_cases numeric : x = 'u'
      · subst numeric
        have long : 4 < w.length := by
          obtain ⟨pos, read⟩ := spells 0 0 []
          rw [List.append_nil, readString, if_neg (by decide), if_pos rfl, readEscape,
            if_pos rfl] at read
          split at read
          · cases read
          · exact (readNumeric_cases ‹_›).1
        have digits : (w ++ s).take 4 = w.take 4 := List.take_append_of_le_length (Nat.le_of_lt long)
        simp only [nextEscape?, List.cons_append, List.take_succ_cons, List.take_zero,
          List.length_cons, List.drop_succ_cons, List.drop_zero, List.length_append, true_and]
        rw [if_pos (by omega), if_pos (by omega), digits]
      · simp [nextEscape?, numeric]

theorem nextEscape?_digits {half w : List Char} (length : half.length = 4) (nonempty : w ≠ []) :
    nextEscape? ('\\' :: 'u' :: (half ++ w)) = some half := by
  have more := List.length_pos_iff.2 nonempty
  rw [nextEscape?, if_pos]
  · exact congrArg some (List.take_left' length)
  · refine ⟨rfl, ?_⟩
    rw [List.length_cons, List.length_cons, List.length_append, length]
    omega

theorem readNumeric_local {pos n : Nat} {p : CodePoint} {u : Text}
    (read : readNumeric pos s = .ok (p, n)) (split : s.drop (n - 1) = q ++ r) (closing : Closing q)
    (spells : Spells q u) : ∃ run, s = run ++ (q ++ r) ∧ run.length + 1 = n ∧
      Closing (run ++ q) ∧ ∀ pos' t, readNumeric pos' (run ++ (q ++ t)) = .ok (p, n) := by
  obtain ⟨long, ⟨k, value⟩, short | ⟨rfl, digits, m, next, low⟩⟩ := readNumeric_cases read
  · subst short
    have whole := List.take_append_drop 4 s
    have length : (s.take 4).length = 4 := List.length_take_of_le (Nat.le_of_lt long)
    rw [show s.drop 4 = q ++ r from split] at whole
    refine ⟨s.take 4, whole.symm, by rw [length], ?_, fun pos' t => ?_⟩
    · exact closing.append_left (not_mark_of_hexValue value)
    · have more := List.length_pos_iff.2 closing.ne_nil
      apply readNumeric_congr read
      · simp only [List.length_append, length]
        omega
      · rw [List.take_left' length]
      · rw [List.drop_left' length, show s.drop 4 = q ++ r from split,
          nextEscape?_append closing spells, nextEscape?_append closing spells]
  · obtain ⟨w, tail, more, rfl⟩ := nextEscape?_eq_some next
    have length : (s.take 4).length = 4 := List.length_take_of_le (Nat.le_of_lt long)
    have length' : (w.take 4).length = 4 := List.length_take_of_le (Nat.le_of_lt more)
    have last : w.drop 4 = q ++ r := by
      calc
        w.drop 4 = (s.drop 4).drop 6 := by rw [tail]; rfl
        _ = s.drop 10 := by rw [List.drop_drop]
        _ = q ++ r := split
    have second := List.take_append_drop 4 w
    rw [last] at second
    generalize w.take 4 = half at low length' second
    subst second
    have whole := List.take_append_drop 4 s
    rw [tail] at whole
    refine ⟨s.take 4 ++ '\\' :: 'u' :: half, by simpa using whole.symm, by simp [length, length'],
      ?_, fun pos' t => ?_⟩
    · have inner := (closing.append_left (not_mark_of_hexValue low)).escape 'u'
      simpa using inner.append_left (not_mark_of_hexValue value)
    · apply readNumeric_congr read
      · simp only [List.length_append, List.length_cons, length]
        omega
      · rw [List.append_assoc, List.take_left' length]
      · rw [List.append_assoc, List.drop_left' length, tail]
        have nonempty : ∀ t, q ++ t ≠ [] := fun t => by simp [closing.ne_nil]
        exact (nextEscape?_digits length' (nonempty t)).trans
          (nextEscape?_digits length' (nonempty r)).symm

theorem readEscape_local {opening pos n : Nat} {p : CodePoint} {u : Text}
    (read : readEscape opening pos s = .ok (p, n)) (split : s.drop n = q ++ r) (closing : Closing q)
    (spells : Spells q u) : ∃ run, s = run ++ (q ++ r) ∧ run.length = n ∧
      Closing ('\\' :: run ++ q) ∧
      ∀ opening' pos' t, readEscape opening' pos' (run ++ (q ++ t)) = .ok (p, n) := by
  cases s with
  | nil => cases read
  | cons x s =>
      rw [readEscape] at read
      split at read
      · rename_i numeric
        have positive : 0 < n := by
          obtain ⟨_, _, rfl | ⟨rfl, _⟩⟩ := readNumeric_cases read <;> decide
        have tail : s.drop (n - 1) = q ++ r := by
          rw [← split, show n = (n - 1) + 1 by omega, List.drop_succ_cons, Nat.add_sub_cancel]
        obtain ⟨run, whole, length, inside, same⟩ := readNumeric_local read tail closing spells
        refine ⟨x :: run, by rw [whole, List.cons_append], by rw [List.length_cons, length],
          inside.escape x, fun opening' pos' t => ?_⟩
        rw [List.cons_append, readEscape, if_pos numeric]
        exact same pos' t
      · rename_i plain
        split at read
        · rename_i y known
          cases read
          rw [List.drop_succ_cons, List.drop_zero] at split
          refine ⟨[x], by rw [split]; rfl, rfl, closing.escape x, fun opening' pos' t => ?_⟩
          rw [List.cons_append, readEscape, if_neg plain, known]
        · cases read

/-- A string is read as its text up to its closing quote, whatever stands after it. -/
theorem readString_local {opening pos : Nat} {u : Text} (read : Yields (readString opening pos s) u r) :
    ∃ q, s = q ++ r ∧ Closing q ∧ Spells q u := by
  obtain ⟨place, read⟩ := read
  fun_induction readString opening pos s generalizing u with
  | case1 => cases read
  | case2 pos s =>
      cases read
      refine ⟨['"'], rfl, .quote, fun opening' pos' t => ⟨pos' + 1, ?_⟩⟩
      rw [List.cons_append, readString, if_pos rfl]
      rfl
  | case3 => cases read
  | case4 pos s p n escape _ ih =>
      obtain ⟨v, inner⟩ := more_eq_ok read
      obtain ⟨q, split, closing, spells⟩ := ih inner
      obtain ⟨run, whole, length, closing', same⟩ := readEscape_local escape split closing spells
      rw [inner] at read
      cases read
      refine ⟨'\\' :: run ++ q, by rw [whole]; simp, closing', fun opening' pos' t => ?_⟩
      obtain ⟨place', tail⟩ := spells opening' (pos' + 1 + n) t
      refine ⟨place', ?_⟩
      rw [List.append_assoc, List.cons_append, readString, if_neg (by decide), if_pos rfl]
      simp only [same opening' pos' t, List.drop_left' length, tail]
      rfl
  | case5 => cases read
  | case6 pos x s noQuote noBackslash visible ih =>
      obtain ⟨v, inner⟩ := more_eq_ok read
      obtain ⟨q, split, closing, spells⟩ := ih inner
      rw [inner] at read
      cases read
      refine ⟨x :: q, by rw [split]; rfl, .character noQuote noBackslash closing,
        fun opening' pos' t => ?_⟩
      obtain ⟨place', tail⟩ := spells opening' (pos' + 1) t
      refine ⟨place', ?_⟩
      rw [List.cons_append, readString, if_neg noQuote, if_neg noBackslash, if_neg visible, tail]
      rfl

end

/-! ## Numbers -/

section
variable {r s : List Char} {c c' : Cursor}

def Halts (s : List Char) : Prop := ∀ x ∈ s.head?, ¬inAtom x

/-- The same text, wherever it stands, and more after it. -/
def Extends (r : List Char) (c c' : Cursor) : Prop := c'.rest = c.rest ++ r

theorem Extends.advance {n : Nat} (longer : Extends r c c') (length : n ≤ c.rest.length) :
    Extends r (c.advance n) (c'.advance n) := by
  rw [Extends] at longer ⊢
  rw [Cursor.advance, Cursor.advance, longer, List.drop_append_of_le_length length]

theorem Halts.not_digit (halts : Halts r) : r.takeWhile Char.isDigit = [] := by
  cases r with
  | nil => rfl
  | cons x r =>
      rw [List.takeWhile_cons_of_neg]
      exact fun digit => halts x rfl (inAtom_of_isDigit digit)

theorem takeWhile_digits_append (halts : Halts r) (s : List Char) :
    (s ++ r).takeWhile Char.isDigit = s.takeWhile Char.isDigit := by
  rw [List.takeWhile_append, halts.not_digit, List.append_nil]
  split
  · rename_i all
    exact ((List.takeWhile_prefix _).eq_of_length all).symm
  · rfl

theorem head?_append_of_halts (halts : Halts r) {x : Char} (atom : inAtom x) :
    (s ++ r).head? = some x ↔ s.head? = some x := by
  cases s with
  | nil =>
      constructor
      · exact fun head => absurd atom (halts x head)
      · exact fun head => by cases head
  | cons y s => exact Iff.rfl

theorem head?_ne_of_halts (halts : Halts r) {x : Char} (atom : inAtom x) (other : s.head? ≠ some x) :
    (s ++ r).head? ≠ some x :=
  fun head => other ((head?_append_of_halts halts atom).1 head)

theorem wholeDigits_of_head (other : s.head? ≠ some '0') :
    wholeDigits s = s.takeWhile Char.isDigit := by
  rw [wholeDigits.eq_def]
  split
  · exact absurd rfl other
  · rfl

theorem wholeDigits_append (halts : Halts r) (s : List Char) :
    wholeDigits (s ++ r) = wholeDigits s := by
  by_cases zero : s.head? = some '0'
  · obtain ⟨t, rfl⟩ := List.head?_eq_some_iff.1 zero
    rfl
  · rw [wholeDigits_of_head (head?_ne_of_halts halts rfl zero), wholeDigits_of_head zero,
      takeWhile_digits_append halts]

theorem fractionDigits_of_head (other : s.head? ≠ some '.') : fractionDigits s = [] := by
  rw [fractionDigits.eq_def]
  split
  · exact absurd rfl other
  · rfl

theorem fractionDigits_append (halts : Halts r) (s : List Char) :
    fractionDigits (s ++ r) = fractionDigits s := by
  by_cases point : s.head? = some '.'
  · obtain ⟨t, rfl⟩ := List.head?_eq_some_iff.1 point
    exact takeWhile_digits_append halts t
  · rw [fractionDigits_of_head (head?_ne_of_halts halts rfl point), fractionDigits_of_head point]

theorem sign_append (halts : Halts r) (s : List Char) :
    ((s ++ r).take 1).filter (fun x => x == '+' || x == '-') =
      (s.take 1).filter fun x => x == '+' || x == '-' := by
  cases s with
  | nil =>
      cases r with
      | nil => rfl
      | cons x r =>
          have noAtom : ¬inAtom x := halts x rfl
          simp only [inAtom, Bool.or_eq_true, beq_iff_eq, not_or] at noAtom
          simp [noAtom]
  | cons y s => rfl

theorem exponent?_append (halts : Halts r) (s : List Char) : exponent? (s ++ r) = exponent? s := by
  cases s with
  | nil =>
      cases r with
      | nil => rfl
      | cons x r =>
          have noMark : ¬(x = 'e' ∨ x = 'E') := by
            rintro (rfl | rfl)
            · exact halts 'e' rfl rfl
            · exact halts 'E' rfl rfl
          rw [List.nil_append, exponent?, if_neg noMark]
          rfl
  | cons e s =>
      have length := (sign_spec s).1.length_le
      rw [List.cons_append, exponent?, exponent?]
      simp only [sign_append halts s, List.drop_append_of_le_length length,
        takeWhile_digits_append halts]

def outcome {α : Type} (r : Read α) : Option (α × List Char) :=
  r.toOption.map fun (a, d) => (a, d.rest)

theorem yields_iff {α : Type} {r : Read α} {a : α} {s : List Char} :
    Yields r a s ↔ outcome r = some (a, s) := by
  constructor
  · rintro ⟨pos, rfl⟩
    rfl
  · intro got
    obtain ⟨⟨b, d⟩, read, same⟩ := Option.map_eq_some_iff.1 got
    cases same
    cases r with
    | error e => cases read
    | ok result =>
        cases read
        exact ⟨d.pos, rfl⟩

theorem Extends.sign (halts : Halts r) (longer : Extends r c c') :
    (c'.rest.head? == some '-') = (c.rest.head? == some '-') ∧
    Extends r (if c.rest.head? == some '-' then c.advance 1 else c)
      (if c.rest.head? == some '-' then c'.advance 1 else c') := by
  constructor
  · rw [Bool.eq_iff_iff, beq_iff_eq, beq_iff_eq, show c'.rest = _ from longer]
    exact head?_append_of_halts halts rfl
  · split
    · rename_i head
      obtain ⟨s, split⟩ := List.head?_eq_some_iff.1 (beq_iff_eq.1 head)
      exact longer.advance (by simp [split])
    · exact longer

theorem Extends.fraction (halts : Halts r) (longer : Extends r c c') :
    fractionDigits c'.rest = fractionDigits c.rest ∧
    Extends r
      (if (fractionDigits c.rest).isEmpty then c
        else c.advance ((fractionDigits c.rest).length + 1))
      (if (fractionDigits c.rest).isEmpty then c'
        else c'.advance ((fractionDigits c.rest).length + 1)) := by
  constructor
  · rw [show c'.rest = _ from longer]
    exact fractionDigits_append halts _
  · split
    · exact longer
    · rename_i some'
      exact longer.advance
        (fraction_spec (List.isEmpty_eq_false_iff.1 (Bool.eq_false_iff.2 some'))).1.length_le

/-- A number does not depend on a text after it that does not go on with it. -/
theorem readNumber_append (halts : Halts r) (longer : Extends r c c') :
    outcome (readNumber c') = (outcome (readNumber c)).map fun (v, t) => (v, t ++ r) := by
  rw [readNumber, readNumber]
  obtain ⟨minus, signed⟩ := longer.sign halts
  simp only [minus]
  generalize (if c.rest.head? == some '-' then c.advance 1 else c) = u at signed
  generalize (if c.rest.head? == some '-' then c'.advance 1 else c') = u' at signed
  have whole : wholeDigits u'.rest = wholeDigits u.rest := by
    rw [show u'.rest = _ from signed]
    exact wholeDigits_append halts _
  have first := signed.advance (wholeDigits_spec u.rest).1.length_le
  rw [whole]
  generalize u.advance (wholeDigits u.rest).length = c₁ at first
  generalize u'.advance (wholeDigits u.rest).length = c₁' at first
  obtain ⟨fraction, second⟩ := first.fraction halts
  rw [fraction]
  generalize (if (fractionDigits c₁.rest).isEmpty then c₁
    else c₁.advance ((fractionDigits c₁.rest).length + 1)) = c₂ at second
  generalize (if (fractionDigits c₁.rest).isEmpty then c₁'
    else c₁'.advance ((fractionDigits c₁.rest).length + 1)) = c₂' at second
  have exponent : exponent? c₂'.rest = exponent? c₂.rest := by
    rw [show c₂'.rest = _ from second]
    exact exponent?_append halts _
  rw [exponent]
  split
  · rfl
  · split
    · rename_i found
      obtain ⟨run, ahead, length, _⟩ := exponent?_spec found
      have third := second.advance (length ▸ ahead.length_le)
      exact congrArg some (congrArg (Prod.mk _) third)
    · split
      · exact congrArg some (congrArg (Prod.mk _) second)
      · split
        · exact congrArg some (congrArg (Prod.mk _) second)
        · rfl

end

end ChatPreview.Json
