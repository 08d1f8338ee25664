import ChatPreview.Proofs.Place.Basic
/-!
Positions of a text: offsets and the places of its lines go together one to one, in the same order.
-/
namespace ChatPreview
namespace Place

/-- Whether a place is in a text: on one of its lines, or just behind it. -/
def Inside (source : List Char) (p : Place) : Prop :=
  ∃ line, (source.splitOn '\n')[p.line]? = some line ∧ p.column ≤ line.length

theorem inside_after (text rest : List Char) : (after text).Inside (text ++ rest) := by
  induction text with
  | nil =>
      have nonempty : rest.splitOn '\n' ≠ [] := by
        rw [List.splitOn_eq_splitOnP]
        exact List.splitOnP_ne_nil _ rest
      obtain ⟨line, lines, split⟩ := List.exists_cons_of_ne_nil nonempty
      refine ⟨line, ?_, Nat.zero_le _⟩
      rw [List.nil_append, split]
      rfl
  | cons c text ih =>
      obtain ⟨line, found, within⟩ := ih
      rw [List.cons_append]
      by_cases feed : c = '\n'
      · subst feed
        rw [after_feed, Inside, splitOn_feed]
        exact ⟨line, found, within⟩
      · obtain ⟨first, lines, split, split'⟩ := splitOn_cons feed (text ++ rest)
        rw [after_cons feed, Inside, split']
        rw [split] at found
        split
        · rename_i top
          rw [top] at found
          cases found
          exact ⟨c :: line, rfl, Nat.succ_le_succ within⟩
        · rename_i later
          obtain ⟨n, above⟩ := Nat.exists_eq_succ_of_ne_zero later
          rw [above] at found ⊢
          exact ⟨line, found, within⟩

/-! ## A line and the text around it -/

def Finished (text : List Char) : Prop := ∀ x ∈ text.getLast?, x = '\n'

theorem finished_nil : Finished [] := nofun

section
variable {c : Char} {s : List Char}

theorem Finished.tail (finished : Finished (c :: s)) : Finished s := by
  intro x last
  apply finished x
  rw [List.getLast?_cons, Option.mem_def.mp last]
  rfl

theorem Finished.ne_nil (finished : Finished (c :: s)) (other : c ≠ '\n') : s ≠ [] := by
  rintro rfl
  exact other (finished c rfl)

theorem Finished.head?_append (finished : Finished (c :: s)) (other : c ≠ '\n') (t : List Char) :
    (s ++ t).head? = s.head? := by
  obtain ⟨d, u, rfl⟩ := List.exists_cons_of_ne_nil (finished.ne_nil other)
  rfl

theorem Finished.cons (finished : Finished s) (other : s = [] → c = '\n') :
    Finished (c :: s) := by
  intro x last
  rw [List.getLast?_cons, Option.mem_some_iff] at last
  cases final : s.getLast? with
  | none =>
      rw [final] at last
      rw [← last]
      exact other (List.getLast?_eq_none_iff.mp final)
  | some y =>
      rw [final] at last
      rw [← last]
      exact finished y final

end

/-- The text before a line between line feeds, with their number, and the text behind it. -/
structure Around (source : List Char) (number : Nat) (before line after : List Char) : Prop where
  split : source = before ++ (line ++ after)
  start : before.length = lineStart source number
  feeds : before.count '\n' = number
  finished : Finished before
  one : '\n' ∉ line
  stop : ∀ x ∈ after.head?, x = '\n'

theorem exists_around {source line : List Char} {number : Nat}
    (found : (source.splitOn '\n')[number]? = some line) :
    ∃ before after, Around source number before line after := by
  induction source generalizing number line with
  | nil =>
      cases number with
      | zero =>
          cases found
          exact ⟨[], [], rfl, rfl, rfl, finished_nil, nofun, nofun⟩
      | succ => cases found
  | cons c s ih =>
      by_cases feed : c = '\n'
      · subst feed
        rw [splitOn_feed] at found
        cases number with
        | zero =>
            cases found
            exact ⟨[], '\n' :: s, rfl, rfl, rfl, finished_nil, nofun, by simp⟩
        | succ number =>
            obtain ⟨before, after, around⟩ := ih found
            refine ⟨'\n' :: before, after, ?_, ?_, ?_, ?_, around.one, around.stop⟩
            · rw [around.split, List.cons_append]
            · rw [lineStart_feed, List.length_cons, around.start]
            · rw [List.count_cons_self, around.feeds]
            · exact around.finished.cons fun _ => rfl
      · obtain ⟨first, lines, split, split'⟩ := splitOn_cons feed s
        rw [split'] at found
        cases number with
        | zero =>
            cases found
            have head : (s.splitOn '\n')[0]? = some first := by rw [split]; rfl
            obtain ⟨before, after, around⟩ := ih head
            obtain rfl := List.eq_nil_of_length_eq_zero around.start
            refine ⟨[], after, ?_, rfl, rfl, finished_nil, ?_, around.stop⟩
            · rw [around.split]
              rfl
            · exact List.not_mem_cons_of_ne_of_not_mem (Ne.symm feed) around.one
        | succ number =>
            have below : (s.splitOn '\n')[number + 1]? = some line := by rw [split]; exact found
            obtain ⟨before, after, around⟩ := ih below
            refine ⟨c :: before, after, ?_, ?_, ?_, ?_, around.one, around.stop⟩
            · rw [around.split, List.cons_append]
            · rw [lineStart_cons feed, List.length_cons, around.start]
            · rw [List.count_cons_of_ne feed, around.feeds]
            · apply around.finished.cons
              rintro rfl
              exact absurd around.feeds (Nat.succ_ne_zero number).symm

theorem Around.before_eq {source before line rest : List Char} {number : Nat}
    (around : Around source number before line rest) :
    source.take (lineStart source number) = before := by
  rw [← around.start]
  conv_lhs => rw [around.split]
  exact List.take_left

theorem after_append (text : List Char) {more : List Char} (one : '\n' ∉ more) :
    after (text ++ more) = ⟨(after text).line, (after text).column + more.length⟩ := by
  induction more using List.reverseRecOn with
  | nil =>
      rw [List.append_nil]
      rfl
  | append_singleton more c ih =>
      obtain ⟨one', feed⟩ := not_or.mp (mt List.mem_append.mpr one)
      have other : c ≠ '\n' := fun same => feed (List.mem_singleton.mpr same.symm)
      rw [← List.append_assoc, after_concat, ih one', next_inside other, List.length_append]
      rfl

theorem Finished.column_eq {text : List Char} (finished : Finished text) :
    (after text).column = 0 := by
  induction text using List.reverseRecOn with
  | nil => rfl
  | append_singleton text c =>
      obtain rfl := finished c (List.getLast?_concat ..)
      rw [after_concat, next_feed]

/-- Every place in a text is the one after the text up to its offset. -/
theorem after_of_inside {source : List Char} {p : Place} (inside : p.Inside source) :
    p.offset source ≤ source.length ∧ after (source.take (p.offset source)) = p := by
  obtain ⟨line, found, within⟩ := inside
  obtain ⟨before, rest, around⟩ := exists_around found
  have place : p.offset source = before.length + p.column := by rw [offset, around.start]
  have text : source.take (p.offset source) = before ++ line.take p.column := by
    rw [place, around.split, List.take_length_add_append, List.take_append_of_le_length within]
  have one : '\n' ∉ line.take p.column := fun among => around.one (List.mem_of_mem_take among)
  have number : (after before).line = p.line := by rw [after_eq, around.feeds]
  constructor
  · rw [place, around.split, List.length_append, List.length_append]
    exact Nat.add_le_add_left (Nat.le_trans within (Nat.le_add_right _ _)) _
  · rw [text, after_append before one, number, around.finished.column_eq, Nat.zero_add,
      List.length_take, Nat.min_eq_left within]

end Place

/-! ## Positions -/

namespace Position

/-- Whether a position is one of a text: line and column are there, and the offset is past the lines
before with their line feeds, and as far into its line as the column says. -/
structure In (source : List Char) (p : Position) : Prop where
  line_pos : 1 ≤ p.line
  line_le : p.line ≤ (source.splitOn '\n').length
  column_pos : 1 ≤ p.column
  column_le : ∀ line ∈ (source.splitOn '\n')[p.line - 1]?, p.column ≤ line.length + 1
  offset_eq : p.offset =
    (((source.splitOn '\n').take (p.line - 1)).map (·.length + 1)).sum + (p.column - 1)

def place (p : Position) : Place := ⟨p.line - 1, p.column - 1⟩

theorem In.inside {source : List Char} {p : Position} (position : p.In source) :
    p.place.Inside source := by
  have least := position.line_pos
  have bound : p.line - 1 < (source.splitOn '\n').length :=
    Nat.lt_of_lt_of_le (Nat.sub_lt least Nat.one_pos) position.line_le
  have found := List.getElem?_eq_getElem bound
  refine ⟨_, found, ?_⟩
  exact Nat.sub_le_of_le_add (position.column_le _ found)

theorem In.of_inside {source : List Char} {p : Place} (inside : p.Inside source) :
    In source ⟨p.line + 1, p.column + 1, p.offset source⟩ := by
  obtain ⟨line, found, within⟩ := inside
  refine ⟨Nat.succ_pos _, ?_, Nat.succ_pos _, ?_, rfl⟩
  · exact (List.getElem?_eq_some_iff.mp found).1
  · intro other same
    cases found.symm.trans same
    exact Nat.succ_le_succ within

end Position

theorem locate_in (source : List Char) (offset : Int) : (locate source offset).In source := by
  have whole := List.take_append_drop offset.toNat source
  have inside := Place.inside_after (source.take offset.toNat) (source.drop offset.toNat)
  have position := Position.In.of_inside inside
  rw [Place.offset_after] at position
  rw [whole] at position
  rw [locate_eq]
  exact position

theorem locate_of_in {source : List Char} {p : Position} (position : p.In source) :
    p.offset ≤ source.length ∧ locate source p.offset = p := by
  obtain ⟨bound, place⟩ := Place.after_of_inside position.inside
  have offset : p.place.offset source = p.offset := position.offset_eq.symm
  have line := position.line_pos
  have column := position.column_pos
  rw [offset] at bound place
  refine ⟨bound, ?_⟩
  rw [locate_eq, Int.toNat_natCast, place, List.length_take, Nat.min_eq_left bound]
  cases p
  simp only [Position.place, Position.mk.injEq, and_true]
  exact ⟨Nat.sub_add_cancel line, Nat.sub_add_cancel column⟩

/-- The offsets of a text and the positions of its lines go together one to one, in the same order,
and an offset outside of the text has the position of the nearer end. -/
theorem locate_bijective (source : List Char) :
    (∀ offset : Int, (locate source offset).In source ∧
      ((locate source offset).offset : Int) = max 0 (min offset source.length)) ∧
    (∀ p : Position, p.In source → p.offset ≤ source.length ∧ locate source p.offset = p) ∧
    ∀ o o' : Nat, o ≤ source.length → o' ≤ source.length →
      let p := locate source o
      let p' := locate source o'
      (p.line = p'.line → p.column = p'.column → o = o') ∧
        (o < o' ↔ p.line < p'.line ∨ p.line = p'.line ∧ p.column < p'.column) := by
  refine ⟨fun offset => ⟨locate_in source offset, ?_⟩, fun p => locate_of_in, ?_⟩
  · rw [locate_eq]
    simp only [List.length_take]
    omega
  · intro o o' inside inside'
    have ordered {a b : Nat} (less : a < b) (within : b ≤ source.length) :=
      Place.lt_def.mp (Workspace.placeAt_lt less within)
    have place := Workspace.locate_placeAt source o
    have place' := Workspace.locate_placeAt source o'
    rcases Nat.lt_trichotomy o o' with less | rfl | greater
    · have := ordered less inside'
      simp only
      omega
    · exact ⟨fun _ _ => rfl, by simp⟩
    · have := ordered greater inside
      simp only
      omega

end ChatPreview
