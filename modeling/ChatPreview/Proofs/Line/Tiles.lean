import ChatPreview.Proofs.Line.Commands
/-!
The text of a line and its nodes: each node stands for a text of its own, and between those, before
the first and after the last of them only blanks and continuations are left.
-/
namespace ChatPreview
open Text Scan Token

/-- Blanks and continuations, and nothing else. -/
inductive Gap : List Char → Prop where
  | none : Gap []
  | blank {x : Char} {s : List Char} (first : isBlank x) (rest : Gap s) : Gap (x :: s)
  | carry {trail s : List Char} (trails : Trails trail) (rest : Gap s) :
      Gap ('\\' :: (trail ++ '\n' :: s))

theorem gap_append_blanks {blanks s : List Char} (all : ∀ x ∈ blanks, isBlank x) (rest : Gap s) :
    Gap (blanks ++ s) := by
  induction blanks with
  | nil => exact rest
  | cons x blanks ih =>
      apply Gap.blank (all x List.mem_cons_self)
      exact ih fun y member => all y (List.mem_cons_of_mem x member)

theorem gap_of_blanks {s : List Char} (all : ∀ x ∈ s, isBlank x) : Gap s := by
  rw [← List.append_nil s]
  exact gap_append_blanks all .none

theorem gap_skipSpace (c : Cursor) : Gap (c.upTo (skipSpace c)) := by
  have ahead := reaches_skipSpace c
  have first : ∀ x ∈ c.rest.takeWhile isBlank, isBlank x := fun x => List.mem_takeWhile_imp
  have split := List.takeWhile_append_dropWhile (p := isBlank) (l := c.rest)
  rw [skipSpace_eq] at ahead ⊢
  cases found : Continuation.rest? (c.skipWhile isBlank).rest with
  | none =>
      rw [found] at ahead
      have read : c.upTo (c.skipWhile isBlank) = c.rest.takeWhile isBlank := by
        apply ahead.upTo_eq
        rw [Cursor.skipWhile_rest, split]
      simp only [read]
      exact gap_of_blanks first
  | some r =>
      rw [found] at ahead
      obtain ⟨trail, v, line, trails, rfl⟩ := rest?_eq_some.1 found
      rw [Cursor.skipWhile_rest] at line
      have indent : ∀ x ∈ v.takeWhile isBlank, isBlank x := fun x => List.mem_takeWhile_imp
      have read : c.upTo ((c.skipWhile isBlank).leave (v.dropWhile isBlank)) =
          c.rest.takeWhile isBlank ++ '\\' :: (trail ++ '\n' :: v.takeWhile isBlank) := by
        apply ahead.upTo_eq
        calc
          c.rest = c.rest.takeWhile isBlank ++ '\\' :: (trail ++ '\n' :: v) := by rw [← line, split]
          _ = _ := by simp [Cursor.leave, List.takeWhile_append_dropWhile]
      simp only [read]
      exact gap_append_blanks first (.carry trails (gap_of_blanks indent))

/-! ## Spans of a source -/

/-- The nodes between two offsets of a source. Each has a span of its own, in order, whose text
without continuations it holds; around the spans are only gaps. -/
inductive Tiles (source : List Char) : Nat → List Node → Nat → Prop where
  | nil {p q : Nat} (ordered : p ≤ q) (inside : q ≤ source.length)
      (gap : Gap (source.extract p q)) : Tiles source p [] q
  | cons {p q r : Nat} {n : Node} {ns : List Node} (ordered : p ≤ n.position)
      (gap : Gap (source.extract p n.position)) (nonempty : n.position < q)
      (content : n.content = joinLines (source.extract n.position q)) (rest : Tiles source q ns r) :
      Tiles source p (n :: ns) r

def Cursor.Within (source : List Char) (c : Cursor) : Prop :=
  ∃ before after, source = before ++ (c.rest ++ after) ∧ c.pos = before.length

namespace Cursor.Within
variable {source : List Char} {c d : Cursor}

theorem reaches (h : c.Within source) (ahead : c.Reaches d) : d.Within source := by
  obtain ⟨before, after, split, pos⟩ := h
  obtain ⟨read, rest, further⟩ := ahead
  refine ⟨before ++ read, after, ?_, ?_⟩
  · rw [split, rest, List.append_assoc, List.append_assoc]
  · rw [further, pos, List.length_append]

theorem extract (h : c.Within source) (ahead : c.Reaches d) :
    source.extract c.pos d.pos = c.upTo d := by
  obtain ⟨before, after, split, pos⟩ := h
  have total := ahead.length_add
  have length : d.pos - c.pos ≤ c.rest.length := by omega
  rw [List.extract_eq_take_drop, split, pos, List.drop_left, ← pos, Cursor.upTo,
    List.take_append_of_le_length length]

theorem pos_le (h : c.Within source) : c.pos ≤ source.length := by
  obtain ⟨before, after, split, pos⟩ := h
  rw [split, pos, List.length_append]
  omega

end Cursor.Within

/-- Where the nodes of a command end: at the text that could not be read, or at the line end. -/
theorem Command.readNodes_tiles (limit : Int) {source : List Char} {c : Cursor}
    (within : c.Within source) : ∃ q, Tiles source c.pos (readNodes limit c).nodes q ∧
      (∀ e ∈ (readNodes limit c).error, e.offset = q) ∧
      ((readNodes limit c).error = none → q = (readNodes limit c).next.pos) := by
  fun_induction readNodes limit c with
  | case1 c c₁ ended =>
      have ahead := reaches_skipSpace c
      refine ⟨c₁.pos, .nil ahead.pos_le (within.reaches ahead).pos_le ?_, by simp, fun _ => rfl⟩
      rw [within.extract ahead]
      exact gap_skipSpace c
  | case2 c c₁ inside e c₂ failed =>
      have ahead := reaches_skipSpace c
      obtain ⟨rfl, _⟩ := top_fail failed
      refine ⟨c₁.pos, .nil ahead.pos_le (within.reaches ahead).pos_le ?_, by simp, by simp⟩
      rw [within.extract ahead]
      exact gap_skipSpace c
  | case3 c c₁ inside n c₂ read body ih =>
      have ahead := reaches_skipSpace c
      have within₁ : c₁.Within source := within.reaches ahead
      obtain ⟨onward, further⟩ := consumes_top limit read
      obtain ⟨position, content⟩ := top_eq_between read
      obtain ⟨q, tiles, stopped, whole⟩ := ih (within₁.reaches onward)
      refine ⟨q, .cons ?_ ?_ ?_ ?_ tiles, stopped, whole⟩
      · rw [position]
        exact ahead.pos_le
      · rw [position, within.extract ahead]
        exact gap_skipSpace c
      · rwa [position]
      · rw [position, within₁.extract onward, content]

/-! ## Lines without continuations -/

def Unwrapped (s : List Char) : Prop := ∀ t, t <:+ s → Continuation.starts t = false

theorem Unwrapped.of_append {before s after : List Char} (h : Unwrapped (before ++ (s ++ after))) :
    Unwrapped s := by
  intro t tail
  obtain ⟨read, rfl⟩ := tail
  rw [Continuation.starts, Option.isSome_eq_false_iff, Option.isNone_iff_eq_none]
  cases found : Continuation.rest? t with
  | none => rfl
  | some r =>
      obtain ⟨trail, v, rfl, trails, _⟩ := rest?_eq_some.1 found
      have whole := h ('\\' :: (trail ++ '\n' :: (v ++ after))) ⟨before ++ read, by simp⟩
      rw [Continuation.starts, rest?_eq_some.2 ⟨trail, v ++ after, rfl, trails, rfl⟩] at whole
      cases whole

theorem Unwrapped.joinLines {s : List Char} (h : Unwrapped s) : joinLines s = s := by
  induction s with
  | nil => exact joinLines_nil
  | cons x s ih =>
      have free := h (x :: s) List.suffix_rfl
      rw [Continuation.starts, Option.isSome_eq_false_iff, Option.isNone_iff_eq_none] at free
      rw [joinLines_cons free, ih fun t tail => h t (tail.trans (List.suffix_cons x s))]

theorem Gap.blanks {s : List Char} (gap : Gap s) (h : Unwrapped s) : ∀ x ∈ s, isBlank x := by
  induction gap with
  | none => simp
  | @blank x s first _ ih =>
      intro y member
      cases member with
      | head => exact first
      | tail _ later => exact ih (fun t tail => h t (tail.trans (List.suffix_cons x s))) y later
  | @carry trail s trails _ _ =>
      have free := h _ List.suffix_rfl
      rw [Continuation.starts, rest?_eq_some.2 ⟨trail, s, rfl, trails, rfl⟩] at free
      cases free

theorem extract_append_extract {α : Type} (s : List α) {p q r : Nat} (first : p ≤ q)
    (second : q ≤ r) : s.extract p q ++ s.extract q r = s.extract p r := by
  have between : s.drop q = (s.drop p).drop (q - p) := by
    rw [List.drop_drop, Nat.add_sub_cancel' first]
  have total : r - p = (q - p) + (r - q) := by omega
  rw [List.extract_eq_take_drop, List.extract_eq_take_drop, List.extract_eq_take_drop, between,
    total, List.take_add]

theorem Tiles.ordered {source : List Char} {p q : Nat} {ns : List Node}
    (tiles : Tiles source p ns q) : p ≤ q ∧ q ≤ source.length := by
  induction tiles with
  | nil ordered inside => exact ⟨ordered, inside⟩
  | cons ordered _ nonempty _ _ ih => omega

/-- Without continuations the texts of the nodes, with the blanks between them, are the source. -/
theorem Tiles.rebuild {source : List Char} {p q : Nat} {ns : List Node}
    (tiles : Tiles source p ns q) (h : Unwrapped (source.extract p q)) :
    ∃ gaps last, gaps.length = ns.length ∧ (∀ gap ∈ last :: gaps, ∀ x ∈ gap, isBlank x) ∧
      source.extract p q =
        (List.zipWith (fun gap n => gap ++ n.content) gaps ns).flatten ++ last := by
  induction tiles with
  | @nil p q _ _ gap =>
      refine ⟨[], source.extract p q, rfl, ?_, rfl⟩
      intro g member
      rw [List.mem_singleton.1 member]
      exact gap.blanks h
  | @cons p q r n ns first gap nonempty content rest ih =>
      have order := rest.ordered
      have split : source.extract p r = source.extract p n.position ++
          (source.extract n.position q ++ source.extract q r) := by
        rw [extract_append_extract source (Nat.le_of_lt nonempty) order.1,
          extract_append_extract source first (by omega)]
      rw [split] at h
      have before : Unwrapped ([] ++ (source.extract p n.position ++ _)) := h
      have before : Unwrapped (source.extract p n.position) := before.of_append
      have span : Unwrapped (source.extract n.position q) := h.of_append
      have after : Unwrapped (source.extract q r) := by
        rw [← List.append_assoc, ← List.append_nil (source.extract q r)] at h
        exact h.of_append
      obtain ⟨gaps, last, length, blank, whole⟩ := ih after
      refine ⟨source.extract p n.position :: gaps, last, by simp [length], ?_, ?_⟩
      · intro g member
        simp only [List.mem_cons] at member
        rcases member with rfl | rfl | later
        · exact blank g List.mem_cons_self
        · exact gap.blanks before
        · exact blank g (List.mem_cons_of_mem _ later)
      · rw [split, whole]
        simp [content, span.joinLines]

/-! ## Lines -/

/-- Where the nodes of a line may start: after its first blanks and the dollar sign of a macro. -/
def opening (line : List Char) : Nat :=
  (line.takeWhile isBlank).length + if (line.dropWhile isBlank).head? = some '$' then 1 else 0

def lineEnds : List (List Char) := [[], ['\n'], ['\r', '\n']]

/-- A command that accounts for all the text of its line. -/
structure Accounts (source : List Char) (line : Cursor) (c : Command) : Prop where
  tiled : ∃ q, Tiles source (line.pos + opening line.rest) c.nodes q ∧
    (∀ e ∈ c.error, e.offset = q) ∧
    (c.error = none → line.rest.drop (q - line.pos) ∈ lineEnds)
  rebuilt : c.error = none → Unwrapped line.rest → ∃ gaps last ending, ending ∈ lineEnds ∧
    gaps.length = c.nodes.length ∧ (∀ gap ∈ last :: gaps, ∀ x ∈ gap, isBlank x) ∧
    line.rest = line.rest.take (opening line.rest) ++
      ((List.zipWith (fun gap n => gap ++ n.content) gaps c.nodes).flatten ++ last ++ ending)

theorem placed_within {source : List Char} {ls : List (List Char)} (lines : Lines source ls)
    {line : Cursor} (member : line ∈ placed 0 ls) : line.Within source := by
  obtain ⟨before, after, split, pos⟩ := placed_split member
  exact ⟨before, after, by rw [← lines.flatten, split], by rw [pos, Nat.zero_add]⟩

namespace Command

theorem pastDollar_eq_advance (line : Cursor) :
    pastDollar (line.skipWhile Text.isBlank) = line.advance (opening line.rest) := by
  rw [pastDollar, Cursor.skipWhile_rest, opening]
  split
  · rw [Cursor.skipWhile, Cursor.advance_advance]
  · rw [Nat.add_zero, Cursor.skipWhile]

theorem read_line_end (limit : Int) {source : List Char} {ls : List (List Char)}
    (lines : Lines source ls) (p : Nat) :
    ∀ line ∈ placed p ls, (read limit line).2.rest = [] := by
  induction lines generalizing p with
  | none => simp [placed]
  | last nonempty unbroken =>
      intro line member
      obtain ⟨c, q, _, line_read⟩ := read_last limit p unbroken
      rw [List.mem_singleton.1 member, line_read]
  | @more text s ls unbroken ends rest ih =>
      intro line member
      cases member with
      | head =>
          obtain ⟨c, _, line_read⟩ := read_line limit p unbroken ends
          rw [line_read []]
      | tail _ later => exact ih _ line later

theorem mem_lineEnds {c : Cursor} (ended : c.atLineEnd) (last : (pastNewline c).rest = []) :
    c.rest ∈ lineEnds := by
  rcases atLineEnd_iff.1 ended with empty | ⟨s, feed | feed⟩
  · simp [lineEnds, empty]
  · simp only [pastNewline, feed, afterNewline?, Cursor.leave] at last
    simp [lineEnds, feed, last]
  · simp only [pastNewline, feed, afterNewline?, Cursor.leave] at last
    simp [lineEnds, feed, last]

theorem accounts_of_read (limit : Int) {source : List Char} {line : Cursor}
    (within : line.Within source) (code : ¬IsComment line.rest)
    (ended : (read limit line).2.rest = []) : Accounts source line (read limit line).1 := by
  have first : (line.skipWhile Text.isBlank).rest.head? ≠ some '#' := by rwa [Cursor.skipWhile_rest]
  have start := pastDollar_eq_advance line
  have ahead : line.Reaches (line.advance (opening line.rest)) := by
    rw [← start]
    exact (line.reaches_skipWhile Text.isBlank).trans (reaches_pastDollar _)
  simp only [read, if_neg first, readLine, start] at ended ⊢
  obtain ⟨onward, finished⟩ := readNodes_spec limit (line.advance (opening line.rest))
  obtain ⟨q, tiles, stopped, whole⟩ := readNodes_tiles limit (within.reaches ahead)
  have tail : (readNodes limit (line.advance (opening line.rest))).next.rest ∈ lineEnds :=
    mem_lineEnds finished ended
  generalize readNodes limit (line.advance (opening line.rest)) = body at *
  have split := onward.upTo_append
  constructor
  · refine ⟨q, tiles, stopped, fun noError => ?_⟩
    obtain ⟨read, rest, pos⟩ := ahead.trans onward
    have left : line.rest.drop (q - line.pos) = body.next.rest := by
      rw [whole noError, pos, rest, Nat.add_sub_cancel_left, List.drop_left]
    rwa [left]
  · intro noError unwrapped
    obtain rfl := whole noError
    have parts : line.rest = line.rest.take (opening line.rest) ++
        ((line.advance (opening line.rest)).upTo body.next ++ body.next.rest) := by
      rw [split, Cursor.advance, List.take_append_drop]
    have read := (within.reaches ahead).extract onward
    have plain : Unwrapped (source.extract (line.advance (opening line.rest)).pos body.next.pos) := by
      rw [parts] at unwrapped
      rw [read]
      exact unwrapped.of_append
    obtain ⟨gaps, last, length, blank, text⟩ := tiles.rebuild plain
    refine ⟨gaps, last, body.next.rest, tail, length, blank, ?_⟩
    rw [← text, read]
    exact parts

end Command

/-- No text of a line is lost: what its command has read are nodes with gaps around them. -/
theorem commandsWithin_accounts (limit : Int) (source : List Char) :
    ∃ ls, Lines source ls ∧
      List.Forall₂ (fun line c => ¬IsComment line.rest → Accounts source line c) (placed 0 ls)
        (commandsWithin limit source) := by
  obtain ⟨ls, lines⟩ := exists_lines source
  refine ⟨ls, lines, ?_⟩
  have commands := (commandsFrom_lines limit lines 0).1
  change commandsWithin limit source = _ at commands
  rw [commands, List.forall₂_map_right_iff, List.forall₂_same]
  intro line member code
  apply Command.accounts_of_read limit (placed_within lines member) code
  exact Command.read_line_end limit lines 0 line member

end ChatPreview
