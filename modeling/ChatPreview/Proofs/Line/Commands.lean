import ChatPreview.Proofs.Line.Read
import Mathlib.Data.List.Forall2
/-!
The commands of a source and its logical lines: each line is one command, and around the spans of
the commands only white space is left.
-/
namespace ChatPreview
open Text Scan

def placed : Nat → List (List Char) → List Cursor
  | _, [] => []
  | p, line :: ls => ⟨p, line⟩ :: placed (p + line.length) ls

theorem pos_le_of_mem_placed {p : Nat} {ls : List (List Char)} {line : Cursor}
    (member : line ∈ placed p ls) : p ≤ line.pos := by
  induction ls generalizing p with
  | nil => cases member
  | cons first ls ih =>
      rcases List.mem_cons.1 member with rfl | later
      · exact Nat.le_refl p
      · exact Nat.le_of_add_right_le (ih later)

theorem placed_split {p : Nat} {ls : List (List Char)} {line : Cursor}
    (member : line ∈ placed p ls) : ∃ before after,
      ls.flatten = before ++ (line.rest ++ after) ∧ line.pos = p + before.length := by
  induction ls generalizing p with
  | nil => cases member
  | cons first ls ih =>
      rcases List.mem_cons.1 member with rfl | later
      · exact ⟨[], ls.flatten, rfl, rfl⟩
      · rcases ih later with ⟨before, after, split, pos⟩
        refine ⟨first ++ before, after, by simp [split], ?_⟩
        rw [pos, List.length_append, Nat.add_assoc]

theorem commandsFrom_nil (limit : Int) (p : Nat) : commandsFrom limit ⟨p, []⟩ = [] := by
  rw [commandsFrom]
  rfl

theorem commandsFrom_of_read {limit : Int} {c d : Cursor} {line : Command} (inside : c.rest ≠ [])
    (read : Command.read limit c = (line, d)) :
    commandsFrom limit c = line :: commandsFrom limit d := by
  rw [commandsFrom]
  simp only [inside, dite_false, read]

/-- Each logical line is one command, read from that line alone. -/
theorem commandsFrom_lines (limit : Int) {source : List Char} {ls : List (List Char)}
    (lines : Lines source ls) (p : Nat) :
    commandsFrom limit ⟨p, source⟩ = (placed p ls).map (fun line => (Command.read limit line).1) ∧
      ∀ line ∈ placed p ls, Spans line.pos line.rest (Command.read limit line).1 := by
  induction lines generalizing p with
  | none => exact ⟨commandsFrom_nil limit p, by simp [placed]⟩
  | last nonempty unbroken =>
      rename_i text
      rcases Command.read_last limit p unbroken with ⟨c, q, spans, read⟩
      constructor
      · rw [commandsFrom_of_read nonempty read, commandsFrom_nil]
        simp only [placed, List.map_cons, List.map_nil, read]
      · intro line member
        rw [List.mem_singleton.1 member, read]
        exact spans
  | more unbroken ends rest ih =>
      rename_i text s ls
      rcases Command.read_line limit p unbroken ends with ⟨c, spans, read⟩
      rcases ih (p + text.length + 1) with ⟨commands, each⟩
      have length : p + (text ++ ['\n']).length = p + text.length + 1 := by
        rw [List.length_append, List.length_singleton, Nat.add_assoc]
      constructor
      · have inside : (⟨p, text ++ '\n' :: s⟩ : Cursor).rest ≠ [] := by simp
        rw [commandsFrom_of_read inside (read s), commands, placed, length, List.map_cons, read []]
      · intro line member
        rw [placed, length] at member
        rcases List.mem_cons.1 member with rfl | later
        · rw [read []]
          apply spans.append
          intro x member
          rw [List.mem_singleton.1 member]
          rfl
        · exact each line later

theorem before_of_line {text : List Char} (unbroken : Unbroken text)
    (ends : IsComment text ∨ ¬Continued text) (p : Nat) (s : List Char) :
    IsComment (text ++ '\n' :: s) ∨
      ∃ tail c, Before tail c ⟨p, text ++ '\n' :: s⟩ ∧ ¬IsComment c.rest := by
  by_cases first : IsComment text
  · exact .inl (first.append _)
  · rcases Command.exists_line_end (Command.joined_of_unbroken unbroken) (ends.resolve_left first) with
      ⟨line, ret, rfl, _, joined, closed⟩
    have first' : ¬IsComment line := fun hash => first (hash.append ret)
    refine .inr ⟨ret ++ '\n' :: s, ⟨p, line⟩, ⟨rfl, ?_, joined, (closed s).1⟩, first'⟩
    exact List.append_assoc _ _ _

theorem before_of_last {text : List Char} (unbroken : Unbroken text) (p : Nat) :
    IsComment text ∨ ∃ tail c, Before tail c ⟨p, text⟩ ∧ ¬IsComment c.rest := by
  by_cases first : IsComment text
  · exact .inl first
  · exact .inr ⟨[], ⟨p, text⟩, .alone (Command.joined_of_unbroken unbroken), first⟩

theorem exists_before {source : List Char} {ls : List (List Char)} (lines : Lines source ls)
    (p : Nat) : ∀ line ∈ placed p ls,
      IsComment line.rest ∨ ∃ tail c, Before tail c line ∧ ¬IsComment c.rest := by
  induction lines generalizing p with
  | none => simp [placed]
  | last _ unbroken =>
      intro line member
      rw [List.mem_singleton.1 member]
      exact before_of_last unbroken p
  | more unbroken ends rest ih =>
      intro line member
      cases member with
      | head => exact before_of_line unbroken ends p []
      | tail _ later => exact ih _ line later

theorem skipBlanks_append {blanks s : List Char} {x : Char} (blank : ∀ y ∈ blanks, isBlank y)
    (ink : isBlank x = false) (p : Nat) : (⟨p, blanks ++ x :: s⟩ : Cursor).skipWhile isBlank =
      ⟨p + blanks.length, x :: s⟩ := by
  have run : (blanks ++ x :: s).takeWhile isBlank = blanks := by
    rw [List.takeWhile_append_of_pos blank, List.takeWhile_cons_of_neg (by simp [ink]),
      List.append_nil]
  simp [Cursor.skipWhile, Cursor.advance, run]

/-- A text that goes on past each of its line feeds is one command. -/
theorem commandsWithin_of_joined (limit : Int) {blanks s : List Char} {x : Char}
    (blank : ∀ y ∈ blanks, isBlank y) (ink : isBlank x = false) (code : x ≠ '#')
    (joined : Joined (blanks ++ x :: s)) : commandsWithin limit (blanks ++ x :: s) =
      [(Command.readLine limit ⟨blanks.length, x :: s⟩).1] := by
  have comment : ¬IsComment (blanks ++ x :: s) := by
    rw [IsComment, List.dropWhile_append_of_pos blank, List.dropWhile_cons_of_neg (by simp [ink])]
    simpa using code
  have lines : Lines (blanks ++ x :: s) [blanks ++ x :: s] := .last (by simp)
    fun before after split => ⟨comment, joined before after split⟩
  have first := skipBlanks_append (s := s) blank ink 0
  have plain : (⟨0 + blanks.length, x :: s⟩ : Cursor).rest.head? ≠ some '#' := by simpa using code
  rw [commandsWithin, Cursor.start, (commandsFrom_lines limit lines 0).1, placed, placed,
    List.map_cons, List.map_nil, Command.read, first, if_neg plain, Nat.zero_add]

/-! ## Spans -/

theorem Spans.within {p : Nat} {line : List Char} {c : Command} (spans : Spans p line c) :
    p ≤ c.position ∧ c.position ≤ c.stop ∧ c.stop ≤ p + line.length := by
  rcases spans with ⟨lead, trail, rfl, _, start, stop⟩
  rw [List.length_append, List.length_append]
  omega

theorem Spans.extract {before line after : List Char} {c : Command}
    (spans : Spans before.length line c) :
    (before ++ (line ++ after)).extract c.position c.stop = c.raw := by
  rcases spans with ⟨lead, trail, rfl, _, start, stop⟩
  have length : c.stop - c.position = c.raw.length := by omega
  have split : before ++ (lead ++ c.raw ++ trail ++ after) =
      (before ++ lead) ++ (c.raw ++ (trail ++ after)) := by simp
  rw [List.extract_eq_take_drop, length, split, start, ← List.length_append, List.drop_left,
    List.take_left]

theorem isSpace_outside {lead raw trail : List Char} {i : Nat} {x : Char}
    (around : ∀ x ∈ lead ++ trail, isSpace x) (found : (lead ++ raw ++ trail)[i]? = some x)
    (clear : ¬(lead.length ≤ i ∧ i < lead.length + raw.length)) : isSpace x := by
  have member : x ∈ lead ++ trail := by
    rcases Nat.lt_or_ge i lead.length with first | later
    · rw [List.append_assoc, List.getElem?_append_left first] at found
      exact List.mem_append_left _ (List.mem_of_getElem? found)
    · have after : (lead ++ raw).length ≤ i := by
        rw [List.length_append]
        omega
      rw [List.getElem?_append_right after] at found
      exact List.mem_append_right _ (List.mem_of_getElem? found)
  exact around x member

theorem Spans.outside {p : Nat} {text : List Char} {c : Command} (spans : Spans p text c)
    {offset : Nat} {x : Char} (found : text[offset]? = some x)
    (clear : ¬(c.position ≤ p + offset ∧ p + offset < c.stop)) : isSpace x := by
  rcases spans with ⟨lead, trail, rfl, around, start, stop⟩
  exact isSpace_outside around found (by omega)

section
variable {read : Cursor → Command} {p : Nat} {ls : List (List Char)}

theorem pairwise_of_spans (spans : ∀ line ∈ placed p ls, Spans line.pos line.rest (read line)) :
    ((placed p ls).map read).Pairwise fun c d => c.stop ≤ d.position := by
  induction ls generalizing p with
  | nil => exact .nil
  | cons first ls ih =>
      refine List.pairwise_cons.2 ⟨fun d member => ?_, ih fun line later =>
        spans line (List.mem_cons_of_mem _ later)⟩
      rcases List.mem_map.1 member with ⟨line, later, rfl⟩
      have this := (spans ⟨p, first⟩ List.mem_cons_self).within
      have next := (spans line (List.mem_cons_of_mem _ later)).within
      have order := pos_le_of_mem_placed later
      change _ ∧ _ ∧ _ ≤ p + first.length at this
      omega

theorem outside_of_spans (spans : ∀ line ∈ placed p ls, Spans line.pos line.rest (read line))
    {offset : Nat} {x : Char} (found : ls.flatten[offset]? = some x)
    (clear : ∀ c ∈ (placed p ls).map read, ¬(c.position ≤ p + offset ∧ p + offset < c.stop)) :
    isSpace x := by
  induction ls generalizing p offset with
  | nil => cases found
  | cons first ls ih =>
      rw [List.flatten_cons] at found
      rcases Nat.lt_or_ge offset first.length with inside | later
      · rw [List.getElem?_append_left inside] at found
        exact (spans ⟨p, first⟩ List.mem_cons_self).outside found (clear _ List.mem_cons_self)
      · rw [List.getElem?_append_right later] at found
        apply ih (fun line member => spans line (List.mem_cons_of_mem _ member)) found
        intro c member
        have further : p + first.length + (offset - first.length) = p + offset := by omega
        rw [further]
        exact clear c (List.mem_cons_of_mem _ member)

end

theorem raw_eq_extract {limit : Int} {source : List Char} {c : Command}
    (member : c ∈ commandsWithin limit source) : c.raw = source.extract c.position c.stop := by
  rcases exists_lines source with ⟨ls, lines⟩
  rcases commandsFrom_lines limit lines 0 with ⟨commands, spans⟩
  change commandsWithin limit source = _ at commands
  rw [commands] at member
  rcases List.mem_map.1 member with ⟨line, among, rfl⟩
  rcases placed_split among with ⟨before, after, split, pos⟩
  rw [Nat.zero_add] at pos
  rw [← lines.flatten, split]
  exact (pos ▸ (spans line among)).extract.symm

/-- Commands that stand for the lines of a source, one for each line and in their order. -/
structure Segmented (source : List Char) (ls : List (List Char)) (cs : List Command) : Prop where
  inside : List.Forall₂ (fun line c => line.pos ≤ c.position ∧ c.position ≤ c.stop ∧
    c.stop ≤ line.pos + line.rest.length) (placed 0 ls) cs
  raw : ∀ c ∈ cs, c.raw = source.extract c.position c.stop
  disjoint : cs.Pairwise fun c d => c.stop ≤ d.position
  outside : ∀ offset x, source[offset]? = some x →
    (∀ c ∈ cs, ¬(c.position ≤ offset ∧ offset < c.stop)) → isSpace x

/-- Where the lines of a source end depends on neither the limit nor what is read in them. -/
theorem commandsWithin_segmented (source : List Char) :
    ∃ ls, Lines source ls ∧ (∀ ms, Lines source ms → ms = ls) ∧
      ∀ limit, Segmented source ls (commandsWithin limit source) := by
  rcases exists_lines source with ⟨ls, lines⟩
  refine ⟨ls, lines, fun ms other => other.unique lines, fun limit => ?_⟩
  rcases commandsFrom_lines limit lines 0 with ⟨commands, spans⟩
  change commandsWithin limit source = _ at commands
  rw [commands]
  constructor
  · apply List.forall₂_map_right_iff.2
    exact List.forall₂_same.2 fun line member => (spans line member).within
  · intro c member
    exact raw_eq_extract (commands ▸ member)
  · exact pairwise_of_spans spans
  · intro offset x found clear
    rw [← lines.flatten] at found
    apply outside_of_spans spans found
    simpa using clear

end ChatPreview
