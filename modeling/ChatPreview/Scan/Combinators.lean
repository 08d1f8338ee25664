import ChatPreview.Scan.Basic
import ChatPreview.Scan.CharClass
/-!
Scanners built from scanners. Each one here that fails leaves the cursor where it began.
-/
namespace ChatPreview.Scan
variable {α β : Type}

def common : List Char → List Char → List Char
  | c :: s, d :: t => if c = d then c :: common s t else []
  | _, _ => []

/-- Reads exactly this text. A failure shows the part that agreed and then the first character. -/
def expect (text : List Char) : Scan (List Char) := fun c =>
  if text.isPrefixOf c.rest then .ok text (c.advance text.length)
  else .fail ⟨.expected text (common text c.rest ++ c.peek), c.pos⟩ c

theorem reaches_expect {text got : List Char} {c d : Cursor} (read : expect text c = .ok got d) :
    c.Reaches d := by
  rw [expect] at read
  split at read
  · rename_i starts
    cases read
    exact c.reaches_advance (List.isPrefixOf_iff_prefix.mp starts).length_le
  · cases read

theorem consumes_expect {text : List Char} (nonempty : text ≠ []) : Consumes (expect text) := by
  intro c got d read
  refine ⟨reaches_expect read, ?_⟩
  unfold expect at read
  split at read
  · cases read
    have := List.length_pos_iff.2 nonempty
    simp only [Cursor.advance]
    omega
  · cases read

theorem restores_expect (text : List Char) : Restores (expect text) := by
  intro c e d failed
  rw [expect] at failed
  split at failed
  · cases failed
  · cases failed
    rfl

def oneOf (choices : List (List Char)) : Scan (List Char) := fun c =>
  match choices.find? (·.isPrefixOf c.rest) with
  | some text => .ok text (c.advance text.length)
  | none => .fail ⟨.expectedOneOf choices c.peek, c.pos⟩ c

theorem forward_oneOf (choices : List (List Char)) : Forward (oneOf choices) := by
  intro c got d read
  unfold oneOf at read
  split at read
  · rename_i found
    cases read
    have found := List.find?_some found
    exact c.reaches_advance (List.isPrefixOf_iff_prefix.1 found).length_le
  · cases read

theorem restores_oneOf (choices : List (List Char)) : Restores (oneOf choices) := by
  intro c e d failed
  rw [oneOf] at failed
  split at failed
  · cases failed
  · cases failed
    rfl

def member (k : CharClass) : Scan (List Char) := fun c =>
  match c.rest with
  | char :: _ =>
    if k.has char then .ok [char] (c.advance 1)
    else .fail ⟨.expectedIn k.written [char], c.pos⟩ c
  | [] => .fail ⟨.expectedIn k.written [], c.pos⟩ c

theorem forward_member (k : CharClass) : Forward (member k) := by
  intro c got d read
  unfold member at read
  split at read
  · rename_i char rest split
    split at read
    · cases read
      exact c.reaches_advance (by simp [split])
    · cases read
  · cases read

theorem restores_member (k : CharClass) : Restores (member k) := by
  intro c e d failed
  rw [member] at failed
  split at failed
  · split at failed
    · cases failed
    · cases failed
      rfl
  · cases failed
    rfl

def takeWhile (p : Char → Bool) : Scan (List Char) := fun c =>
  .ok (c.rest.takeWhile p) (c.skipWhile p)

def takeUntil (p : Char → Bool) : Scan (List Char) := takeWhile (!p ·)

def atLeast (least : Nat) (k : CharClass) : Scan (List Char) := fun c =>
  let run := c.rest.takeWhile k.has
  if run.length < least then .fail ⟨.tooFew least k.written run.length, c.pos⟩ c
  else .ok run (c.advance run.length)

theorem forward_atLeast (least : Nat) (k : CharClass) : Forward (atLeast least k) := by
  intro c got d read
  unfold atLeast at read
  simp only at read
  split at read <;> cases read
  exact c.reaches_skipWhile k.has

theorem restores_atLeast (least : Nat) (k : CharClass) : Restores (atLeast least k) := by
  intro c e d failed
  rw [atLeast] at failed
  split at failed
  · cases failed
    rfl
  · cases failed

def next : Scan (List Char) := fun c => .ok c.peek (c.advance c.peek.length)

theorem next_of_cons {c : Cursor} {x : Char} {s : List Char} (line : c.rest = x :: s) :
    next c = .ok [x] (c.advance 1) := by
  rw [next, Cursor.peek_of_cons line]
  rfl

theorem reaches_next (c : Cursor) : c.Reaches (c.advance c.peek.length) :=
  c.reaches_advance (List.length_take_le' 1 c.rest)

def attempt (s : Scan α) : Scan (Option α) := fun c =>
  match s c with
  | .ok a c' => .ok (some a) c'
  | .fail _ _ => .ok none c

theorem attempt_ok (s : Scan α) (c : Cursor) : ∃ a d, attempt s c = .ok a d := by
  rw [attempt]
  cases s c with
  | ok a d => exact ⟨some a, d, rfl⟩
  | fail e d => exact ⟨none, c, rfl⟩

theorem forward_attempt {s : Scan α} (h : Forward s) : Forward (attempt s) := by
  intro c a d read
  unfold attempt at read
  split at read <;> cases read
  · exact h ‹_›
  · exact .refl c

def firstOf : List (Scan α) → Scan α
  | [] => fail .noAlternative
  | s :: rest => fun c =>
    match s c with
    | .ok a c' => .ok a c'
    | .fail _ _ => firstOf rest c

theorem forward_firstOf {scanners : List (Scan α)} (h : ∀ s ∈ scanners, Forward s) :
    Forward (firstOf scanners) := by
  induction scanners with
  | nil => exact forward_fail _
  | cons s rest ih =>
      intro c a d read
      unfold firstOf at read
      split at read
      · cases read
        exact h s List.mem_cons_self ‹_›
      · exact ih (fun t member => h t (List.mem_cons_of_mem s member)) read

theorem consumes_firstOf {scanners : List (Scan α)} (h : ∀ s ∈ scanners, Consumes s) :
    Consumes (firstOf scanners) := by
  induction scanners with
  | nil => intro c a d read; cases read
  | cons s rest ih =>
      intro c a d read
      unfold firstOf at read
      split at read
      · cases read
        exact h s List.mem_cons_self ‹_›
      · exact ih (fun t member => h t (List.mem_cons_of_mem s member)) read

theorem restores_firstOf (scanners : List (Scan α)) : Restores (firstOf scanners) := by
  induction scanners with
  | nil => exact restores_fail _
  | cons s rest ih =>
      intro c e d failed
      unfold firstOf at failed
      split at failed
      · cases failed
      · exact ih failed

theorem exists_of_firstOf {scanners : List (Scan α)} {c d : Cursor} {a : α}
    (read : firstOf scanners c = .ok a d) : ∃ s ∈ scanners, s c = .ok a d := by
  induction scanners with
  | nil => cases read
  | cons s rest ih =>
      unfold firstOf at read
      split at read
      · cases read
        exact ⟨s, List.mem_cons_self, ‹_›⟩
      · obtain ⟨t, member, found⟩ := ih read
        exact ⟨t, List.mem_cons_of_mem s member, found⟩

/-- Items with separators between them, as many as there are. The run ends at the first failure,
at the end of the text, and after a round that read nothing; a separator at its end is read. -/
def separated (item : Scan α) (separator : Scan β) (c : Cursor) : Outcome (List α) :=
  if c.atEnd then .ok [] c
  else match item c with
    | .fail _ _ => .ok [] c
    | .ok a c₁ =>
      match separator c₁ with
      | .fail _ _ => .ok [a] c₁
      | .ok _ c₂ =>
        if c₂.rest.length < c.rest.length then
          match separated item separator c₂ with
          | .ok as c₃ => .ok (a :: as) c₃
          | .fail e c₃ => .fail e c₃
        else .ok [a] c₂
termination_by c.rest.length

section
variable {item : Scan α} {separator : Scan β} {c c₁ c₂ c₃ : Cursor} {a : α} {b : β}

theorem separated_of_atEnd (ended : c.atEnd) : separated item separator c = .ok [] c := by
  rw [separated, if_pos ended]

theorem separated_of_last {e : Failure} (inside : ¬c.atEnd) (read : item c = .ok a c₁)
    (failed : separator c₁ = .fail e c₂) : separated item separator c = .ok [a] c₁ := by
  rw [separated, if_neg inside, read]
  simp only [failed]

theorem separated_of_still (inside : ¬c.atEnd) (read : item c = .ok a c₁)
    (apart : separator c₁ = .ok b c₂) (still : ¬c₂.rest.length < c.rest.length) :
    separated item separator c = .ok [a] c₂ := by
  rw [separated, if_neg inside, read]
  simp only [apart, if_neg still]

theorem separated_of_more {as : List α} (inside : ¬c.atEnd) (read : item c = .ok a c₁)
    (apart : separator c₁ = .ok b c₂) (shorter : c₂.rest.length < c.rest.length)
    (rest : separated item separator c₂ = .ok as c₃) :
    separated item separator c = .ok (a :: as) c₃ := by
  rw [separated, if_neg inside, read]
  simp only [apart, if_pos shorter, rest]

end

theorem forward_separated {item : Scan α} {separator : Scan β} (first : Forward item)
    (second : Forward separator) : Forward (separated item separator) := by
  intro c as d read
  fun_induction separated item separator c generalizing as d with
  | case1 c => cases read; exact .refl c
  | case2 c => cases read; exact .refl c
  | case3 c _ a c₁ item => cases read; exact first item
  | case4 c _ a c₁ item b c₂ separator _ as c₃ tail ih =>
      cases read
      exact ((first item).trans (second separator)).trans (ih tail)
  | case5 => cases read
  | case6 c _ a c₁ item b c₂ separator => cases read; exact (first item).trans (second separator)

end ChatPreview.Scan
