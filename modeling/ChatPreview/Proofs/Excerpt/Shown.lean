import ChatPreview.Proofs.Excerpt.Lines
/-!
The line that is shown with a message. It is the right one, and the caret stands under the character
that the message is about, wherever the lines of the display are those between line feeds.
-/
namespace ChatPreview.Text
open Place (Around exists_around)

def withoutReturns (row : List Char) : List Char := dropEndWhile (· == '\r') row

def withoutBreak (row : List Char) : List Char := withoutReturns (dropEndWhile (· == '\n') row)

/-- What a display shows of a line up to the first break in it. -/
def seen : List Char → List Char
  | [] => []
  | c :: s => if breaksLine c then (if c = '\r' then [] else [c]) else c :: seen s

/-! ## One line -/

section
variable {c : Char} {s row after : List Char} {p : Char → Bool}

theorem dropEndWhile_cons (p : Char → Bool) (c : Char) (s : List Char) : dropEndWhile p (c :: s) =
    if dropEndWhile p s = [] ∧ p c then [] else c :: dropEndWhile p s := by
  simp only [dropEndWhile, List.reverse_cons, List.dropWhile_append, List.reverse_eq_nil_iff]
  by_cases rest : s.reverse.dropWhile p = []
  · by_cases drops : p c
    · simp [rest, drops]
    · simp [rest, drops]
  · simp [rest]

theorem dropEndWhile_cons_of_neg (kept : ¬p c) (s : List Char) :
    dropEndWhile p (c :: s) = c :: dropEndWhile p s := by
  rw [dropEndWhile_cons, if_neg fun both => kept both.2]

theorem withoutReturns_cons (other : c ≠ '\r') (s : List Char) :
    withoutReturns (c :: s) = c :: withoutReturns s :=
  dropEndWhile_cons_of_neg (by simpa using other) s

theorem ne_of_not_breaks (inside : ¬breaksLine c) : c ≠ '\n' ∧ c ≠ '\r' := by
  constructor
  · rintro rfl
    exact inside rfl
  · rintro rfl
    exact inside rfl

theorem withoutBreak_cons (inside : ¬breaksLine c) (s : List Char) :
    withoutBreak (c :: s) = c :: withoutBreak s := by
  obtain ⟨feed, ret⟩ := ne_of_not_breaks inside
  rw [withoutBreak, dropEndWhile_cons_of_neg (by simpa using feed), withoutReturns_cons ret,
    withoutBreak]

theorem withoutBreak_displayLines (one : '\n' ∉ row) (stop : ∀ x ∈ after.head?, x = '\n') :
    withoutBreak ((displayLines (row ++ after)).head?.getD []) = seen row := by
  induction row with
  | nil =>
      cases after with
      | nil => rfl
      | cons x t =>
          obtain rfl := stop x rfl
          rfl
  | cons c s ih =>
      obtain ⟨feed, one'⟩ := not_or.mp (mt List.mem_cons.mpr one)
      rw [List.cons_append, seen]
      by_cases breaks : breaksLine c
      · rw [if_pos breaks]
        by_cases pair : c = '\r' ∧ (s ++ after).head? = some '\n'
        · obtain ⟨rfl, next⟩ := pair
          obtain ⟨t, split⟩ := List.head?_eq_some_iff.mp next
          rw [split, displayLines_pair]
          rfl
        · rw [displayLines_single breaks (not_and.mp pair)]
          by_cases ret : c = '\r'
          · rw [if_pos ret, ret]
            rfl
          · rw [if_neg ret]
            change withoutBreak [c] = [c]
            rw [withoutBreak, dropEndWhile_cons_of_neg (by simpa using Ne.symm feed),
              withoutReturns_cons ret]
            rfl
      · rw [if_neg breaks, displayLines_inside breaks, List.head?_cons, Option.getD_some,
          withoutBreak_cons breaks, ih one']

/-- All of a line is seen only if nothing breaks it before its last character. -/
theorem seen_eq_iff (row : List Char) :
    seen row = withoutReturns row ↔ ∀ x ∈ (withoutReturns row).dropLast, ¬breaksLine x := by
  induction row with
  | nil => exact ⟨fun _ => nofun, fun _ => rfl⟩
  | cons c s ih =>
      rw [seen]
      by_cases breaks : breaksLine c
      · rw [if_pos breaks]
        have last {t : List Char} (clear : ∀ x ∈ (c :: t).dropLast, ¬breaksLine x) : t = [] := by
          by_contra more
          rw [List.dropLast_cons_of_ne_nil more] at clear
          exact clear c List.mem_cons_self breaks
        by_cases ret : c = '\r'
        · subst ret
          rw [if_pos rfl, withoutReturns, dropEndWhile_cons]
          by_cases rest : dropEndWhile (· == '\r') s = []
          · rw [if_pos ⟨rest, rfl⟩]
            exact ⟨fun _ => nofun, fun _ => rfl⟩
          · rw [if_neg fun both => rest both.1]
            exact ⟨nofun, fun clear => absurd (last clear) rest⟩
        · rw [if_neg ret, withoutReturns_cons ret]
          constructor
          · intro whole
            rw [← whole]
            exact nofun
          · intro clear
            rw [last clear]
      · rw [if_neg breaks, withoutReturns_cons (ne_of_not_breaks breaks).2, List.cons_inj_right, ih]
        by_cases rest : withoutReturns s = []
        · rw [rest]
          exact ⟨fun _ => nofun, fun _ => nofun⟩
        · rw [List.dropLast_cons_of_ne_nil rest, List.forall_mem_cons, and_iff_right breaks]

theorem seen_getElem?_iff {n : Nat} {x : Char} (found : row[n]? = some x) (other : x ≠ '\r') :
    (seen row)[n]? = some x ↔ ∀ y ∈ row.take n, ¬breaksLine y := by
  induction row generalizing n with
  | nil => cases found
  | cons c s ih =>
      rw [seen]
      cases n with
      | zero =>
          cases found
          refine ⟨fun _ => nofun, fun _ => ?_⟩
          rw [if_neg other]
          split
          · rfl
          · rfl
      | succ n =>
          rw [List.take_succ_cons, List.forall_mem_cons]
          by_cases breaks : breaksLine c
          · rw [if_pos breaks]
            constructor
            · intro shown
              split at shown <;> cases shown
            · exact fun clear => absurd breaks clear.1
          · rw [if_neg breaks, and_iff_right breaks]
            exact ih found

theorem not_breaks_of_strays (one : '\n' ∉ row) (none : strays (row ++ after) = 0) :
    ∀ x ∈ withoutReturns row, ¬breaksLine x := by
  induction row with
  | nil => exact nofun
  | cons c s ih =>
      obtain ⟨feed, one'⟩ := not_or.mp (mt List.mem_cons.mpr one)
      rw [List.cons_append] at none
      by_cases breaks : breaksLine c
      · by_cases pair : c = '\r' ∧ (s ++ after).head? = some '\n'
        · obtain ⟨rfl, next⟩ := pair
          cases s with
          | nil => exact nofun
          | cons d s =>
              cases next
              exact absurd List.mem_cons_self one'
        · rw [strays_single breaks (Ne.symm feed) (not_and.mp pair)] at none
          cases none
      · rw [strays_inside breaks] at none
        rw [withoutReturns_cons (ne_of_not_breaks breaks).2, List.forall_mem_cons]
        exact ⟨breaks, ih one' none⟩

theorem take_subset_withoutReturns {n : Nat} {x : Char} (found : row[n]? = some x)
    (other : x ≠ '\r') : row.take n ⊆ withoutReturns row := by
  obtain ⟨trail, split, returns⟩ := dropEndWhile_split (· == '\r') row
  change row = withoutReturns row ++ trail at split
  rcases Nat.lt_or_ge n (withoutReturns row).length with inside | beyond
  · intro y among
    rw [split, List.take_append_of_le_length (Nat.le_of_lt inside)] at among
    exact List.mem_of_mem_take among
  · rw [split, List.getElem?_append_right beyond] at found
    exact absurd (beq_iff_eq.mp (returns x (List.mem_of_getElem? found))) other

end

/-! ## Excerpts -/

/-- What is shown of a source at a position in its line, with the text before that line. -/
structure Shown (source : List Char) (place : Position) (before row : List Char) : Prop where
  inStep : strays before = 0 → (lineAt source place.line = withoutReturns row ↔
    ∀ x ∈ (withoutReturns row).dropLast, ¬breaksLine x)
  under : strays before = 0 → ∀ x ∈ source[place.offset]?, x ≠ '\n' → x ≠ '\r' →
    ((lineAt source place.line)[place.column - 1]? = some x ↔
      ∀ y ∈ row.take (place.column - 1), ¬breaksLine y)
  early : strays before ≠ 0 → ∃ other ∈ displayLines before,
    lineAt source place.line = withoutBreak other
  plain : strays source = 0 → lineAt source place.line = withoutReturns row ∧
    ∀ x ∈ source[place.offset]?, x ≠ '\n' → x ≠ '\r' →
      (lineAt source place.line)[place.column - 1]? = some x

theorem shown_of_around {source before row after : List Char} {place : Position}
    (around : Around source (place.line - 1) before row after)
    (column : place.column - 1 ≤ row.length)
    (offset : place.offset = before.length + (place.column - 1)) :
    Shown source place before row := by
  have displayed := displayLines_append around.finished (row ++ after)
  have length := length_displayLines around.finished
  rw [← around.split] at displayed
  rw [around.feeds] at length
  have inStep (none : strays before = 0) : lineAt source place.line = seen row := by
    have first : (displayLines source)[place.line - 1]? = (displayLines (row ++ after)).head? := by
      rw [displayed, List.getElem?_append_right (by omega), length, none, Nat.add_zero,
        Nat.sub_self, List.head?_eq_getElem?]
    rw [← withoutBreak_displayLines around.one around.stop, ← first]
    rfl
  have found {x : Char} (here : source[place.offset]? = some x) (feed : x ≠ '\n') :
      row[place.column - 1]? = some x := by
    rw [around.split, offset, List.getElem?_append_right (Nat.le_add_right _ _),
      Nat.add_sub_cancel_left] at here
    rcases Nat.lt_or_eq_of_le column with inside | last
    · rwa [List.getElem?_append_left inside] at here
    · rw [last, List.getElem?_append_right (Nat.le_refl _), Nat.sub_self,
        ← List.head?_eq_getElem?] at here
      exact absurd (around.stop x here) feed
  refine ⟨?_, ?_, ?_, ?_⟩
  · intro none
    rw [inStep none]
    exact seen_eq_iff row
  · intro none x here feed ret
    rw [inStep none]
    exact seen_getElem?_iff (found here feed) ret
  · intro stray
    have earlier : place.line - 1 < (displayLines before).length := by omega
    refine ⟨_, List.getElem_mem earlier, ?_⟩
    have other :
        (displayLines source)[place.line - 1]? = some (displayLines before)[place.line - 1] := by
      rw [displayed, List.getElem?_append_left earlier, List.getElem?_eq_getElem earlier]
    rw [lineAt, other]
    rfl
  · intro none
    rw [around.split, strays_append around.finished, Nat.add_eq_zero_iff] at none
    obtain ⟨none, none'⟩ := none
    have clear := not_breaks_of_strays around.one none'
    rw [inStep none]
    refine ⟨(seen_eq_iff row).mpr fun x among => clear x (List.dropLast_subset _ among), ?_⟩
    intro x here feed ret
    apply (seen_getElem?_iff (found here feed) ret).mpr
    exact fun y among => clear y (take_subset_withoutReturns (found here feed) ret among)

def heading (message file : String) (place : Position) : String :=
  let gutter := spaces ((toString place.line).length + 1)
  s!"error: {message}\n{gutter}--> {file}:{place.line}:{place.column}\n{gutter}|\n"

def margin (place : Position) : String := s!"{place.line} | "

def underline (place : Position) : String :=
  spaces ((toString place.line).length + 1) ++ "| " ++ spaces (place.column - 1)

theorem excerpt_eq (message file : String) (offset : Int) (source : List Char) :
    let place := locate source offset
    excerpt message offset source file = heading message file place ++
      (margin place ++ String.ofList (lineAt source place.line) ++ "\n") ++
      (underline place ++ "^") := by
  have same (s : String) : toString s = s := rfl
  intro place
  unfold excerpt heading margin underline
  dsimp only
  simp only [same, String.append_assoc]
  rfl

theorem length_underline (place : Position) :
    (underline place).length = (margin place).length + (place.column - 1) := by
  have bars : (toString " | ").length = 1 + "| ".length := rfl
  simp only [underline, margin, spaces, String.length_append, String.length_ofList,
    List.length_replicate, bars, Nat.add_assoc]

/-- An excerpt holds a line of source, and a caret in the column of the message. The line is that
between line feeds, if no other break stands before it or in it before its last character. -/
theorem excerpt_shown (message file : String) (offset : Int) (source : List Char) :
    let place := locate source offset
    excerpt message offset source file = heading message file place ++
        (margin place ++ String.ofList (lineAt source place.line) ++ "\n") ++
        (underline place ++ "^") ∧
      (underline place).length = (margin place).length + (place.column - 1) ∧
      Shown source place (source.take (Place.lineStart source (place.line - 1)))
        ((source.splitOn '\n')[place.line - 1]?.getD []) := by
  refine ⟨excerpt_eq message file offset source, length_underline _, ?_⟩
  have position := locate_in source offset
  generalize locate source offset = place at position
  obtain ⟨row, found, column⟩ := position.inside
  change (source.splitOn '\n')[place.line - 1]? = some row at found
  obtain ⟨before, after, around⟩ := exists_around found
  rw [around.before_eq, found]
  apply shown_of_around around column
  rw [around.start]
  exact position.offset_eq

/-- Whether the line that is shown is that of the offset between line feeds. -/
def ShowsLine (source : List Char) (offset : Int) : Prop :=
  let place := locate source offset
  lineAt source place.line = withoutReturns ((source.splitOn '\n')[place.line - 1]?.getD [])

instance (source : List Char) (offset : Int) : Decidable (ShowsLine source offset) :=
  inferInstanceAs (Decidable (_ = _))

/-- A form feed makes a line of the display, so that the line before is shown. -/
theorem not_showsLine : ¬ShowsLine "a\x0cb\nc".toList 4 := by
  decide +kernel

end ChatPreview.Text
