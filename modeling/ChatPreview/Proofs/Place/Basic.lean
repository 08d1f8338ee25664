import ChatPreview.Workspace
import Mathlib.Algebra.GroupWithZero.Nat
import Mathlib.Data.List.Induction

namespace ChatPreview
namespace Place

instance : LT Place := ⟨fun p q => p.line < q.line ∨ p.line = q.line ∧ p.column < q.column⟩

instance : LE Place := ⟨fun p q => p.line < q.line ∨ p.line = q.line ∧ p.column ≤ q.column⟩

instance (p q : Place) : Decidable (p < q) := inferInstanceAs (Decidable (_ ∨ _))

instance (p q : Place) : Decidable (p ≤ q) := inferInstanceAs (Decidable (_ ∨ _))

theorem lt_def {p q : Place} :
    p < q ↔ p.line < q.line ∨ p.line = q.line ∧ p.column < q.column := Iff.rfl

theorem le_def {p q : Place} :
    p ≤ q ↔ p.line < q.line ∨ p.line = q.line ∧ p.column ≤ q.column := Iff.rfl

theorem le_refl (p : Place) : p ≤ p := by
  rw [le_def]
  omega

theorem le_trans {p q r : Place} (first : p ≤ q) (second : q ≤ r) : p ≤ r := by
  rw [le_def] at first second ⊢
  omega

theorem le_total (p q : Place) : p ≤ q ∨ q ≤ p := by
  rw [le_def, le_def]
  omega

theorem le_of_lt {p q : Place} (less : p < q) : p ≤ q := by
  rw [lt_def] at less
  rw [le_def]
  omega

theorem lt_of_lt_of_le {p q r : Place} (first : p < q) (second : q ≤ r) : p < r := by
  rw [lt_def] at first ⊢
  rw [le_def] at second
  omega

theorem lt_of_le_of_lt {p q r : Place} (first : p ≤ q) (second : q < r) : p < r := by
  rw [le_def] at first
  rw [lt_def] at second ⊢
  omega

theorem not_le_of_lt {p q : Place} (less : p < q) : ¬q ≤ p := by
  rw [lt_def] at less
  rw [le_def]
  omega

def next (p : Place) (c : Char) : Place :=
  if c = '\n' then ⟨p.line + 1, 0⟩ else ⟨p.line, p.column + 1⟩

theorem next_feed (p : Place) : p.next '\n' = ⟨p.line + 1, 0⟩ := rfl

theorem next_inside {c : Char} (inside : c ≠ '\n') (p : Place) :
    p.next c = ⟨p.line, p.column + 1⟩ := if_neg inside

theorem lt_next (p : Place) (c : Char) : p < p.next c := by
  rw [next, lt_def]
  split
  · exact .inl (Nat.lt_succ_self p.line)
  · exact .inr ⟨rfl, Nat.lt_succ_self p.column⟩

def after (text : List Char) : Place := text.foldl next ⟨0, 0⟩

theorem after_concat (text : List Char) (c : Char) : after (text ++ [c]) = (after text).next c := by
  rw [after, List.foldl_append]
  rfl

theorem after_eq (text : List Char) :
    after text = ⟨text.count '\n', (text.reverse.takeWhile (· ≠ '\n')).length⟩ := by
  induction text using List.reverseRecOn with
  | nil => rfl
  | append_singleton text c ih =>
      rw [after_concat, ih, List.count_append, List.reverse_append, List.reverse_singleton,
        List.singleton_append]
      by_cases feed : c = '\n'
      · subst feed
        rw [List.takeWhile_cons_of_neg (by simp)]
        rfl
      · have none : [c].count '\n' = 0 := by
          apply List.count_eq_zero_of_not_mem
          simpa using Ne.symm feed
        rw [next_inside feed, List.takeWhile_cons_of_pos (by simpa using feed), none]
        rfl

theorem after_le_append (text more : List Char) : after text ≤ after (text ++ more) := by
  induction more generalizing text with
  | nil =>
      rw [List.append_nil]
      exact le_refl _
  | cons c more ih =>
      have next := ih (text ++ [c])
      rw [after_concat, List.append_assoc, List.singleton_append] at next
      exact le_trans (le_of_lt (lt_next (after text) c)) next

theorem after_lt_append (text : List Char) {more : List Char} (some : more ≠ []) :
    after text < after (text ++ more) := by
  cases more with
  | nil => exact absurd rfl some
  | cons c more =>
      have rest := after_le_append (text ++ [c]) more
      rw [after_concat, List.append_assoc, List.singleton_append] at rest
      exact lt_of_lt_of_le (lt_next (after text) c) rest

/-! ## Offsets -/

/-- The offset at which a line of a text starts: past the lines before it and their line feeds. -/
def lineStart (source : List Char) (line : Nat) : Nat :=
  (((source.splitOn '\n').take line).map (·.length + 1)).sum

def offset (source : List Char) (p : Place) : Nat := lineStart source p.line + p.column

theorem lineStart_zero (source : List Char) : lineStart source 0 = 0 := rfl

theorem splitOn_feed (s : List Char) : ('\n' :: s).splitOn '\n' = [] :: s.splitOn '\n' := by
  rw [List.splitOn_eq_splitOnP, List.splitOnP_cons_eq_if_modifyHead, if_pos (by decide),
    List.splitOn_eq_splitOnP]

theorem splitOn_cons {c : Char} (inside : c ≠ '\n') (s : List Char) :
    ∃ line lines, s.splitOn '\n' = line :: lines ∧
      (c :: s).splitOn '\n' = (c :: line) :: lines := by
  rw [List.splitOn_eq_splitOnP, List.splitOn_eq_splitOnP, List.splitOnP_cons_eq_if_modifyHead,
    if_neg (by simpa using inside)]
  cases split : s.splitOnP (· == '\n') with
  | nil => exact absurd split (List.splitOnP_ne_nil _ s)
  | cons line lines => exact ⟨line, lines, rfl, rfl⟩

theorem lineStart_feed (s : List Char) (line : Nat) :
    lineStart ('\n' :: s) (line + 1) = lineStart s line + 1 := by
  rw [lineStart, splitOn_feed, List.take_succ_cons, List.map_cons, List.sum_cons, Nat.add_comm]
  rfl

theorem lineStart_cons {c : Char} (inside : c ≠ '\n') (s : List Char) (line : Nat) :
    lineStart (c :: s) (line + 1) = lineStart s (line + 1) + 1 := by
  obtain ⟨first, lines, split, split'⟩ := splitOn_cons inside s
  rw [lineStart, lineStart, split, split', List.take_succ_cons, List.take_succ_cons, List.map_cons,
    List.map_cons, List.sum_cons, List.sum_cons, List.length_cons]
  omega

theorem after_feed (text : List Char) :
    after ('\n' :: text) = ⟨(after text).line + 1, (after text).column⟩ := by
  induction text using List.reverseRecOn with
  | nil => rfl
  | append_singleton text c ih =>
      rw [← List.cons_append, after_concat, after_concat, ih]
      by_cases feed : c = '\n'
      · rw [feed, next_feed, next_feed]
      · rw [next_inside feed, next_inside feed]

theorem after_cons {c : Char} (inside : c ≠ '\n') (text : List Char) : after (c :: text) =
    if (after text).line = 0 then ⟨0, (after text).column + 1⟩ else after text := by
  induction text using List.reverseRecOn with
  | nil => exact next_inside inside ⟨0, 0⟩
  | append_singleton text d ih =>
      rw [← List.cons_append, after_concat, after_concat, ih]
      by_cases feed : d = '\n'
      · rw [feed, next_feed, next_feed, if_neg (Nat.succ_ne_zero _)]
        split
        · rename_i first
          rw [first]
        · rfl
      · rw [next_inside feed, next_inside feed]
        split
        · rfl
        · rfl

/-- The offset of the place after the first part of a text is the length of that part. -/
theorem offset_after (text rest : List Char) :
    (after text).offset (text ++ rest) = text.length := by
  induction text with
  | nil => rfl
  | cons c text ih =>
      rw [offset] at ih
      rw [List.cons_append, List.length_cons, ← ih]
      by_cases feed : c = '\n'
      · subst feed
        rw [after_feed, offset, lineStart_feed, Nat.add_right_comm]
      · rw [after_cons feed]
        split
        · rename_i first
          rw [offset, lineStart_zero, first, lineStart_zero, Nat.add_assoc]
        · rename_i later
          obtain ⟨line, above⟩ := Nat.exists_eq_succ_of_ne_zero later
          rw [offset, above, lineStart_cons feed, Nat.add_right_comm]

def between (source : List Char) (p q : Place) : List Char :=
  source.extract (p.offset source) (q.offset source)

end Place

/-! ## Places of offsets -/

theorem locate_eq (source : List Char) (offset : Int) : locate source offset =
    let place := Place.after (source.take offset.toNat)
    ⟨place.line + 1, place.column + 1, (source.take offset.toNat).length⟩ := by
  rw [locate, Place.after_eq]

namespace Workspace

theorem placeAt_eq (source : List Char) (offset : Nat) :
    placeAt source offset = Place.after (source.take offset) := by
  rw [placeAt, locate_eq]
  rfl

theorem locate_placeAt (source : List Char) (offset : Nat) :
    (locate source offset).line = (placeAt source offset).line + 1 ∧
      (locate source offset).column = (placeAt source offset).column + 1 := by
  rw [placeAt_eq, locate_eq]
  exact ⟨rfl, rfl⟩

section
variable {source : List Char} {o o' : Nat}

theorem offset_placeAt (inside : o ≤ source.length) : (placeAt source o).offset source = o := by
  have whole := Place.offset_after (source.take o) (source.drop o)
  rw [List.take_append_drop, List.length_take, Nat.min_eq_left inside] at whole
  rw [placeAt_eq, whole]

theorem between_placeAt (ordered : o ≤ o') (inside : o' ≤ source.length) :
    Place.between source (placeAt source o) (placeAt source o') = source.extract o o' := by
  rw [Place.between, offset_placeAt (Nat.le_trans ordered inside), offset_placeAt inside]

theorem take_split (source : List Char) (ordered : o ≤ o') :
    source.take o' = source.take o ++ (source.take o').drop o := by
  have split := List.take_append_drop o (source.take o')
  rw [List.take_take, Nat.min_eq_left ordered] at split
  exact split.symm

theorem placeAt_le (ordered : o ≤ o') : placeAt source o ≤ placeAt source o' := by
  rw [placeAt_eq, placeAt_eq, take_split source ordered]
  exact Place.after_le_append _ _

theorem placeAt_lt (less : o < o') (inside : o' ≤ source.length) :
    placeAt source o < placeAt source o' := by
  have between : (source.take o').drop o ≠ [] := by
    intro empty
    have length := congrArg List.length empty
    rw [List.length_drop, List.length_take, List.length_nil] at length
    omega
  rw [placeAt_eq, placeAt_eq, take_split source (Nat.le_of_lt less)]
  exact Place.after_lt_append _ between

theorem placeAt_line_le (source : List Char) (o : Nat) :
    (placeAt source o).line ≤ source.count '\n' := by
  rw [placeAt_eq, Place.after_eq]
  exact (List.take_sublist o source).count_le '\n'

end
end Workspace
end ChatPreview
