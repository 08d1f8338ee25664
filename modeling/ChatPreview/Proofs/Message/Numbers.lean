import ChatPreview.Proofs.Message.Rounds

namespace ChatPreview.Json

/-- So many digits in a row, more than a number is read from. -/
def Overrun (s : List Char) (n : Nat) : Prop :=
  ∃ run, run <:+: s ∧ (∀ x ∈ run, x.isDigit) ∧ run.length = n ∧ maxDigits < n

variable {c d : Cursor} {s t : List Char} {e : DigitLimit}

theorem Overrun.of_suffix {n : Nat} (overrun : Overrun t n) (tail : t <:+ s) : Overrun s n := by
  obtain ⟨run, inside, digits, length, long⟩ := overrun
  exact ⟨run, inside.trans tail.isInfix, digits, length, long⟩

theorem Overrun.of_reaches {n : Nat} (overrun : Overrun d.rest n) (ahead : c.Reaches d) :
    Overrun c.rest n :=
  overrun.of_suffix ahead.suffix

theorem map_eq_error {α β ε : Type} {r : Except ε α} {f : α → β} {e : ε}
    (stopped : r.map f = .error e) : r = .error e := by
  cases r with
  | error other =>
      cases stopped
      rfl
  | ok a => cases stopped

/-- Whether a reader that takes a number for too long stands before its digits. -/
def Blames (item : Cursor → Read Value) : Prop :=
  ∀ ⦃c e⦄, Plain c.rest → item c = .error (.digits e) → Overrun c.rest e.count

/-! ## Strings hold no number -/

section
variable {opening pos : Nat}

theorem readNumeric_ne_digits (pos : Nat) (s : List Char) :
    readNumeric pos s ≠ .error (.digits e) := by
  rw [readNumeric]
  repeat' split
  all_goals simp [fault]

theorem readEscape_ne_digits (opening pos : Nat) (s : List Char) :
    readEscape opening pos s ≠ .error (.digits e) := by
  cases s with
  | nil => simp [readEscape, fault]
  | cons x s =>
      rw [readEscape]
      split
      · exact readNumeric_ne_digits pos s
      · split <;> simp [fault]

theorem readString_ne_digits (opening pos : Nat) (s : List Char) :
    readString opening pos s ≠ .error (.digits e) := by
  fun_induction readString opening pos s with
  | case1 => simp [fault]
  | case2 => simp
  | case3 pos s other escape =>
      rintro same
      cases same
      exact readEscape_ne_digits opening pos s escape
  | case4 pos s p n escape _ ih => exact fun stopped => ih (map_eq_error stopped)
  | case5 => simp [fault]
  | case6 pos c s _ _ _ ih => exact fun stopped => ih (map_eq_error stopped)

theorem readKey_ne_digits (c : Cursor) : readKey c ≠ .error (.digits e) := by
  rw [readKey]
  split
  · rename_i s _
    split
    · rename_i other found
      rintro same
      cases same
      exact readString_ne_digits c.pos (c.pos + 1) s found
    · simp only
      split <;> simp [fault]
  · simp [fault]

end

/-! ## Numbers -/

theorem wholeDigits_isDigit (s : List Char) : ∀ x ∈ wholeDigits s, x.isDigit := by
  intro x member
  rw [wholeDigits.eq_def] at member
  split at member
  · rw [List.mem_singleton.1 member]
    rfl
  · exact List.all_eq_true.1 List.all_takeWhile x member

theorem readDigits_eq_error {digits : List Char} (stopped : readDigits digits = .error e) :
    digits.length = e.count ∧ maxDigits < e.count := by
  rw [readDigits] at stopped
  split at stopped
  · cases stopped
    exact ⟨rfl, ‹_›⟩
  · cases stopped

theorem blames_readNumber : Blames readNumber := by
  intro c e _ stopped
  rw [readNumber] at stopped
  simp only at stopped
  have sign := (sign_runs c).reaches
  generalize (if c.rest.head? == some '-' then c.advance 1 else c) = unsigned at stopped sign
  split at stopped
  · cases stopped
  · split at stopped
    · cases stopped
    · split at stopped
      · cases stopped
      · split at stopped
        · cases stopped
        · rename_i long
          cases stopped
          obtain ⟨length, exceeds⟩ := readDigits_eq_error long
          obtain ⟨starts, _⟩ := wholeDigits_spec unsigned.rest
          have here : Overrun unsigned.rest e.count :=
            ⟨wholeDigits unsigned.rest, starts.isInfix, wholeDigits_isDigit _, length, exceeds⟩
          exact here.of_reaches sign

/-! ## Values -/

section
variable {item : Cursor → Read Value} (sound : Sound item) (blames : Blames item)
include sound blames

theorem blames_readItems (plain : Plain c.rest)
    (stopped : readItems item c = .error (.digits e)) : Overrun c.rest e.count := by
  fun_induction readItems item c with
  | case1 c other first =>
      cases stopped
      exact blames plain first
  | case2 => cases stopped
  | case3 c v c₁ first c₂ s comma c₃ shorter ih =>
      have ahead : c.Reaches c₃ := by
        have head : c₂.rest.head? = some ',' := by rw [comma]; rfl
        have next := (reaches_head head).trans (reaches_json_skipSpace _)
        exact ((sound plain first).1.trans (reaches_json_skipSpace c₁)).trans next
      cases rest : readItems item c₃ with
      | error other =>
          rw [rest] at stopped
          cases stopped
          exact (ih (plain.of_reaches ahead) rest).of_reaches ahead
      | ok got =>
          rw [rest] at stopped
          cases stopped
  | case4 => cases stopped
  | case5 => cases stopped

theorem blames_readMembers {before : Members} (plain : Plain c.rest)
    (stopped : readMembers item before c = .error (.digits e)) : Overrun c.rest e.count := by
  fun_induction readMembers item before c with
  | case1 before c other first =>
      cases stopped
      exact absurd first (readKey_ne_digits c)
  | case2 before c key c₁ first other second =>
      cases stopped
      have name := readKey_reaches plain first
      exact (blames (plain.of_reaches name) second).of_reaches name
  | case3 => cases stopped
  | case4 before c key c₁ first v c₂ second c₃ members s comma c₄ shorter ih =>
      have name := readKey_reaches plain first
      have value := (sound (plain.of_reaches name) second).1
      have ahead : c.Reaches c₄ := by
        have head : c₃.rest.head? = some ',' := by rw [comma]; rfl
        have next := (reaches_head head).trans (reaches_json_skipSpace _)
        exact ((name.trans value).trans (reaches_json_skipSpace c₂)).trans next
      exact (ih (plain.of_reaches ahead) stopped).of_reaches ahead
  | case5 => cases stopped
  | case6 => cases stopped

end

theorem blames_readOne {inner : Option (Cursor → Read Value)} (sound : ∀ item ∈ inner, Sound item)
    (blames : ∀ item ∈ inner, Blames item) : Blames (readOne inner) := by
  intro c e plain stopped
  rw [readOne.eq_def] at stopped
  have past {x : Char} {s : List Char} (opens : c.rest = x :: s) :
      c.Reaches (skipSpace (c.advance 1)) := by
    have head : c.rest.head? = some x := by rw [opens]; rfl
    exact (reaches_head head).trans (reaches_json_skipSpace _)
  split at stopped
  · exact absurd (map_eq_error stopped) (readString_ne_digits _ _ _)
  · rename_i s opens
    cases inner with
    | none => cases stopped
    | some item =>
        simp only at stopped
        split at stopped
        · cases stopped
        · have inside := plain.of_reaches (past opens)
          exact (blames_readItems (sound item rfl) (blames item rfl) inside
            (map_eq_error stopped)).of_reaches (past opens)
  · rename_i s opens
    cases inner with
    | none => cases stopped
    | some item =>
        simp only at stopped
        split at stopped
        · cases stopped
        · have inside := plain.of_reaches (past opens)
          exact (blames_readMembers (sound item rfl) (blames item rfl) inside
            (map_eq_error stopped)).of_reaches (past opens)
  · split at stopped
    · cases stopped
    · exact blames_readNumber plain stopped

theorem blames_readValue (levels : Nat) : Blames (readValue levels) := by
  induction levels with
  | zero =>
      change Blames (readOne none)
      exact blames_readOne (by simp) (by simp)
  | succ levels ih =>
      change Blames (readOne (some (readValue levels)))
      apply blames_readOne
      · intro item left
        cases left
        exact sound_readValue levels
      · intro item left
        cases left
        exact ih

/-- Reading stops at a number only for the digits in a row that the text has. -/
theorem overrun_of_decode {levels : Nat} (plain : Plain s)
    (stopped : decode levels s = .error (.digits e)) :
    Overrun s e.count := by
  rw [decode] at stopped
  split at stopped
  · cases stopped
  · have space := reaches_json_skipSpace (.start s)
    cases read : readValue levels (skipSpace (.start s)) with
    | error other =>
        rw [read] at stopped
        cases stopped
        exact (blames_readValue levels (plain.of_reaches space) read).of_reaches space
    | ok got =>
        rw [read] at stopped
        simp only [Bind.bind, Except.bind] at stopped
        split at stopped <;> cases stopped

end ChatPreview.Json
