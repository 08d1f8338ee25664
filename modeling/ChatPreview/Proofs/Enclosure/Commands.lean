import ChatPreview.Proofs.Counter.Commands
import ChatPreview.Proofs.Enclosure.Ends
import ChatPreview.Proofs.Nodes.Shape
import ChatPreview.Proofs.Returns.Previews
/-!
What the span of a command encloses. Trimming takes more white space from a line than separates its
nodes, so that a word with such white space, or an error at it, may stand outside.
-/
namespace ChatPreview
open Text Scan Token

/-- Whether ink stands at an offset: a character that trimming does not take. -/
def InkAt (source : List Char) (i : Nat) : Prop := ∃ x ∈ source[i]?, isSpace x = false

/-- Whether white space stands at an offset that is neither a blank nor part of a line end. -/
def StrayAt (source : List Char) (i : Nat) : Prop :=
  (∃ x ∈ source[i]?, isSpace x ∧ isBlank x = false) ∧ ¬atNewline (source.drop i)

/-- Whether ink stands in a line up to one offset, and from the character before another on. -/
structure InkAround (source : List Char) (first last p q : Nat) : Prop where
  left : ∃ i, first ≤ i ∧ i ≤ p ∧ i < last ∧ InkAt source i
  right : ∃ j, first ≤ j ∧ q ≤ j + 1 ∧ j < last ∧ InkAt source j

def Node.stop? (limit : Int) (source : List Char) (n : Node) : Option Nat :=
  if n.kind = .comment then some (n.position + n.content.length)
  else match Token.top limit (.seek source n.position) with
    | .ok _ d => some d.pos
    | .fail _ _ => none

namespace Command

def Encloses (c : Command) (p q : Int) : Prop := (c.position : Int) ≤ p ∧ q ≤ c.stop

instance (c : Command) (p q : Int) : Decidable (c.Encloses p q) :=
  inferInstanceAs (Decidable (_ ∧ _))

def EnclosesReports (limit : Int) (source : List Char) (c : Command) : Prop :=
  (∀ n ∈ c.nodes, ∃ q ∈ n.stop? limit source, c.Encloses n.position q) ∧
    ∀ e ∈ c.error, c.Encloses e.offset e.offset

instance (limit : Int) (source : List Char) (c : Command) :
    Decidable (c.EnclosesReports limit source) :=
  inferInstanceAs (Decidable (_ ∧ _))

end Command

/-! ## Trimmed texts -/

section
variable {s source : List Char} {x : Char} {i p q : Nat}

theorem inkAt_extract : InkAt (source.extract p q) i ↔ p + i < q ∧ InkAt source (p + i) := by
  rw [InkAt, InkAt, List.extract_eq_take_drop, List.getElem?_take, List.getElem?_drop]
  by_cases inside : p + i < q
  · rw [if_pos (by omega), and_iff_right inside]
  · rw [if_neg (by omega)]
    constructor
    · rintro ⟨x, none, _⟩
      cases none
    · exact fun both => absurd both.1 inside

theorem ink_of_head_trim (head : x ∈ (trim s).head?) : isSpace x = false := by
  obtain ⟨trail, split, _⟩ := dropEndWhile_split isSpace (trimStart s)
  have first : (s.dropWhile isSpace).head? = some x := by
    change (trimStart s).head? = some x
    rw [split, List.head?_append]
    exact congrArg (·.or trail.head?) head
  have stop := List.head?_dropWhile_not isSpace s
  rw [first] at stop
  exact stop

theorem ink_of_last_trim (last : x ∈ (trim s).getLast?) : isSpace x = false := by
  have stop := List.head?_dropWhile_not isSpace (trimStart s).reverse
  rw [trim, trimEnd, dropEndWhile, List.getLast?_reverse] at last
  rw [last] at stop
  exact stop

theorem ink_of_split {lead raw trail : List Char} (around : ∀ x ∈ lead ++ trail, isSpace x)
    (nonempty : raw ≠ []) (first : ∀ x ∈ raw.head?, isSpace x = false)
    (last : ∀ x ∈ raw.getLast?, isSpace x = false) :
    let text := lead ++ raw ++ trail
    InkAt text lead.length ∧ InkAt text (lead.length + raw.length - 1) ∧
      ∀ i, InkAt text i → lead.length ≤ i ∧ i < lead.length + raw.length := by
  have some' := List.length_pos_iff.mpr nonempty
  have at' {k : Nat} (inside : k < raw.length) :
      (lead ++ raw ++ trail)[lead.length + k]? = raw[k]? := by
    rw [List.append_assoc, List.getElem?_append_right (Nat.le_add_right _ _),
      Nat.add_sub_cancel_left, List.getElem?_append_left inside]
  refine ⟨?_, ?_, ?_⟩
  · have here := List.head?_eq_some_head nonempty
    refine ⟨_, ?_, first _ here⟩
    rw [Option.mem_def, ← here, List.head?_eq_getElem?]
    exact at' some'
  · have here := List.getLast?_eq_some_getLast nonempty
    refine ⟨_, ?_, last _ here⟩
    rw [Option.mem_def, ← here, List.getLast?_eq_getElem?, Nat.add_sub_assoc some']
    exact at' (Nat.sub_lt some' Nat.one_pos)
  · rintro i ⟨x, found, ink⟩
    by_contra clear
    rw [isSpace_outside around found clear] at ink
    cases ink

theorem trim_ink (nonempty : trim s ≠ []) :
    let lead := (s.takeWhile isSpace).length
    InkAt s lead ∧ InkAt s (lead + (trim s).length - 1) ∧
      ∀ i, InkAt s i → lead ≤ i ∧ i < lead + (trim s).length := by
  obtain ⟨trail, split, around⟩ := trim_around s
  have ink := ink_of_split around nonempty (fun _ => ink_of_head_trim) fun _ => ink_of_last_trim
  rwa [← split] at ink

theorem not_inkAt_of_trim (empty : trim s = []) (i : Nat) : ¬InkAt s i := by
  rintro ⟨x, found, ink⟩
  obtain ⟨trail, split, around⟩ := trim_around s
  rw [empty, List.append_nil] at split
  rw [split] at found
  rw [around x (List.mem_of_getElem? found)] at ink
  cases ink

end

/-! ## Offsets of a source -/

section
variable {source : List Char} {c d : Cursor} {p : Char → Prop} {x : Char} {i : Nat}

theorem eq_seek (start : (Cursor.start source).Reaches c) : c = .seek source c.pos := by
  change (Cursor.seek source 0).Reaches c at start
  exact start.eq_seek

theorem within_of_start (start : (Cursor.start source).Reaches c) : c.Within source := by
  apply Cursor.Within.reaches _ start
  exact ⟨[], [], (List.append_nil source).symm, rfl⟩

theorem ends_at (within : c.Within source) (ahead : c.Reaches d) (ends : EndsIn p c d) :
    c.pos < d.pos ∧ (∃ x ∈ source[c.pos]?, p x) ∧ ∃ x ∈ source[d.pos - 1]?, p x := by
  obtain ⟨⟨x, head, first⟩, read, y, split, last⟩ := ends
  have total := ahead.length_add
  have length := congrArg List.length split
  rw [List.length_append, List.length_cons] at length
  have final : source[d.pos - 1]? = some y := by
    obtain ⟨before, after, whole, pos⟩ := within
    have there : d.pos - 1 = before.length + read.length := by omega
    rw [there, whole, List.getElem?_append_right (Nat.le_add_right _ _), Nat.add_sub_cancel_left,
      split, List.append_assoc, List.getElem?_append_right (Nat.le_refl _), Nat.sub_self]
    rfl
  exact ⟨by omega, ⟨x, within.getElem? head, first⟩, y, final, last⟩

theorem inkAt_of_not_strayAt (found : source[i]? = some x) (ink : isBlank x = false)
    (inside : ¬(Cursor.seek source i).atLineEnd) (plain : ¬StrayAt source i) :
    InkAt source i := by
  have line : ¬atNewline (source.drop i) :=
    fun newline => inside (Bool.or_eq_true_iff.mpr (.inr newline))
  refine ⟨x, found, ?_⟩
  by_contra space
  exact plain ⟨⟨x, found, Bool.not_eq_false _ ▸ space, ink⟩, line⟩

theorem inkAt_of_word (word : ∃ x ∈ source[i]?, endsWord x = false) (plain : ¬StrayAt source i) :
    InkAt source i := by
  obtain ⟨x, found, free⟩ := word
  refine inkAt_of_not_strayAt found (breaks_endsWord.not_blank free) (fun ended => ?_) plain
  have stops := head_all_of_atLineEnd breaks_endsWord ended
  rw [Cursor.seek, List.head?_drop, Option.mem_def.mp found, Option.all_some, free] at stops
  cases stops

end

/-! ## Lines -/

namespace Command

section
variable {limit : Int} {source : List Char} {c : Cursor}

/-- The span of a line encloses what has ink around it. A blank line has the empty span at its
start. -/
theorem readLine_encloses (limit : Int) (within : c.Within source) (p q : Nat) :
    (readLine limit c).1.Encloses p q ↔
      InkAround source c.pos (readNodes limit (pastDollar c)).next.pos p q ∨
        (readLine limit c).1.isBlank ∧ c.pos ≤ p ∧ q ≤ c.pos := by
  have ahead := (reaches_pastDollar c).trans (readNodes_spec limit (pastDollar c)).1
  rw [readLine, Encloses, isBlank, ← within.extract ahead]
  generalize (readNodes limit (pastDollar c)).next.pos = last
  dsimp only
  generalize text : source.extract c.pos last = line
  by_cases blank : trim line = []
  · have none : ¬InkAround source c.pos last p q := by
      rintro ⟨⟨i, first, _, inside, ink⟩, _⟩
      obtain ⟨k, rfl⟩ := Nat.exists_eq_add_of_le first
      exact not_inkAt_of_trim blank k (text ▸ inkAt_extract.mpr ⟨inside, ink⟩)
    rw [blank]
    simp [none]
  · have placed {i : Nat} (ink : InkAt line i) : c.pos + i < last ∧ InkAt source (c.pos + i) :=
      inkAt_extract.mp (text ▸ ink)
    obtain ⟨first, final, inside⟩ := trim_ink blank
    have length := List.length_pos_iff.mpr blank
    have bar : (trim line).isEmpty = false := List.isEmpty_eq_false_iff.mpr blank
    simp only [bar, Bool.false_eq_true, if_false, false_and, or_false]
    have bounds {i : Nat} (after : c.pos ≤ i) (before : i < last) (ink : InkAt source i) :
        c.pos + (line.takeWhile isSpace).length ≤ i ∧
          i < c.pos + (line.takeWhile isSpace).length + (trim line).length := by
      obtain ⟨k, rfl⟩ := Nat.exists_eq_add_of_le after
      have := inside k (text ▸ inkAt_extract.mpr ⟨before, ink⟩)
      omega
    constructor
    · intro both
      exact ⟨⟨_, Nat.le_add_right _ _, by omega, placed first⟩,
        ⟨_, Nat.le_add_right _ _, by omega, placed final⟩⟩
    · rintro ⟨⟨i, after, le, before, ink⟩, j, after', le', before', ink'⟩
      have := bounds after before ink
      have := bounds after' before' ink'
      omega

theorem encloses_of_ink (within : c.Within source) {p q j : Nat} (first : c.pos ≤ p)
    (ordered : p ≤ j) (stop : q ≤ j + 1) (last : j < (readNodes limit (pastDollar c)).next.pos)
    (ink : InkAt source p) (ink' : InkAt source j) : (readLine limit c).1.Encloses p q := by
  apply (readLine_encloses limit within p q).mpr
  refine .inl ⟨⟨p, first, Nat.le_refl p, ?_, ink⟩, j, ?_, stop, last, ink'⟩
  · exact Nat.lt_of_le_of_lt ordered last
  · exact Nat.le_trans first ordered

end

/-- What a command reports, seen from the text of its line, which starts with the first character
that is not a blank and goes on up to an offset. -/
structure Reported (limit : Int) (source : List Char) (c : Command) (last : Nat) : Prop where
  ended : c.start ≤ last ∧ (Cursor.seek source last).atLineEnd
  raw : c.raw = trim (source.extract c.start last)
  nodes : ∀ n ∈ c.nodes, ∃ q, top limit (.seek source n.position) = .ok n (.seek source q) ∧
    n.stop? limit source = some q ∧ c.start ≤ n.position ∧ n.position < q ∧ q ≤ last ∧
    (c.Encloses n.position q ↔ InkAround source c.start last n.position q) ∧
    (n.kind ≠ .literal → c.Encloses n.position q)
  error : ∀ e ∈ c.error, ∃ o : Nat, e.offset = o ∧ c.start ≤ o ∧ o < last ∧
    (c.Encloses o o ↔ InkAround source c.start last o o ∨ c.isBlank ∧ o = c.start) ∧
    (source[o]? ≠ some '\r' → c.Encloses o o)
  plain : (∀ i, c.start ≤ i → i < last → ¬StrayAt source i) → c.EnclosesReports limit source

section
variable {limit : Int} {source : List Char} {c : Cursor} {n : Node}

theorem top_of_readNodes (member : n ∈ (readNodes limit c).nodes) :
    ∃ d e, c.Reaches d ∧ top limit d = .ok n e ∧ e.Reaches (readNodes limit c).next := by
  fun_induction readNodes limit c with
  | case1 => cases member
  | case2 => cases member
  | case3 c c₁ inside m c₂ read body ih =>
      have space := reaches_skipSpace c
      rcases List.mem_cons.mp member with rfl | later
      · exact ⟨c₁, c₂, space, read, (readNodes_spec limit c₂).1⟩
      · obtain ⟨d, e, ahead, read', rest⟩ := ih later
        exact ⟨d, e, (space.trans (consumes_top limit read).1).trans ahead, read', rest⟩

theorem node_of_readLine (start : (Cursor.start source).Reaches c)
    (member : n ∈ (readNodes limit (pastDollar c)).nodes) :
    ∃ q, top limit (.seek source n.position) = .ok n (.seek source q) ∧
      n.stop? limit source = some q ∧ c.pos ≤ n.position ∧ n.position < q ∧
      q ≤ (readNodes limit (pastDollar c)).next.pos ∧
      (n.kind = .literal ∧ (∃ x ∈ source[n.position]?, endsWord x = false) ∧
          (∃ x ∈ source[q - 1]?, endsWord x = false) ∨
        n.kind ≠ .literal ∧ InkAt source n.position ∧ InkAt source (q - 1)) := by
  obtain ⟨d, e, ahead, read, rest⟩ := top_of_readNodes member
  have ahead := (reaches_pastDollar c).trans ahead
  have onward := (consumes_top limit read).1
  have here := eq_seek (start.trans ahead)
  have there := eq_seek ((start.trans ahead).trans onward)
  have position := (top_eq_between read).1
  obtain ⟨kind, ends⟩ := endsIn_item (forward_inside limit limit.toNat) (item_of_top read)
  have within := within_of_start (start.trans ahead)
  have placed : top limit (.seek source n.position) = .ok n (.seek source e.pos) := by
    rw [position, ← here, ← there, read]
  have stop : n.stop? limit source = some e.pos := by
    rw [Node.stop?, if_neg kind, placed]
    rfl
  rw [position]
  rw [position] at placed
  rcases ends with ⟨word, ends⟩ | ⟨other, ends⟩
  · obtain ⟨further, first, last⟩ := ends_at within onward ends
    exact ⟨e.pos, placed, stop, ahead.pos_le, further, rest.pos_le, .inl ⟨word, first, last⟩⟩
  · obtain ⟨further, first, last⟩ := ends_at within onward ends
    exact ⟨e.pos, placed, stop, ahead.pos_le, further, rest.pos_le, .inr ⟨other, first, last⟩⟩

theorem error_of_readLine (start : (Cursor.start source).Reaches c) {e : Failure}
    (stopped : (readNodes limit (pastDollar c)).error = some e) :
    ∃ (o : Nat) (x : Char), e.offset = o ∧ c.pos ≤ o ∧
      o < (readNodes limit (pastDollar c)).next.pos ∧ source[o]? = some x ∧
      Text.isBlank x = false ∧ ¬(Cursor.seek source o).atLineEnd ∧
      (x ≠ '\r' → isSpace x = false) := by
  obtain ⟨d, x, s, ahead, rest, offset, split, inside, blank, ink⟩ := failed_of_readNodes stopped
  have ahead := (reaches_pastDollar c).trans ahead
  have here := eq_seek (start.trans ahead)
  have next := eq_seek ((start.trans ahead).trans rest)
  have ended := (readNodes_spec limit (pastDollar c)).2
  have head : d.rest.head? = some x := by
    rw [split]
    rfl
  refine ⟨d.pos, x, offset, ahead.pos_le, Nat.lt_of_le_of_ne rest.pos_le fun same => ?_,
    (within_of_start (start.trans ahead)).getElem? head, blank, here ▸ inside, ink⟩
  rw [next, ← same, ← here] at ended
  exact inside ended

theorem enclosesReports_of_plain (start : (Cursor.start source).Reaches c)
    (plain : ∀ i, c.pos ≤ i → i < (readNodes limit (pastDollar c)).next.pos →
      ¬StrayAt source i) : (readLine limit c).1.EnclosesReports limit source := by
  have within := within_of_start start
  constructor
  · intro n member
    obtain ⟨q, _, stop, first, ordered, last, ends⟩ := node_of_readLine start member
    have final : c.pos ≤ q - 1 := by omega
    have inside : q - 1 < (readNodes limit (pastDollar c)).next.pos := by omega
    refine ⟨q, stop, ?_⟩
    rcases ends with ⟨_, word, word'⟩ | ⟨_, ink, ink'⟩
    · have ink := inkAt_of_word word (plain _ first (by omega))
      have ink' := inkAt_of_word word' (plain _ final inside)
      exact encloses_of_ink within first (by omega) (by omega) inside ink ink'
    · exact encloses_of_ink within first (by omega) (by omega) inside ink ink'
  · intro e stopped
    obtain ⟨o, x, offset, first, last, found, blank, inside, _⟩ := error_of_readLine start stopped
    have ink := inkAt_of_not_strayAt found blank inside (plain o first last)
    rw [offset]
    exact encloses_of_ink within first (Nat.le_refl o) (Nat.le_succ o) last ink ink

theorem readLine_reported (limit : Int) (start : (Cursor.start source).Reaches c) :
    Reported limit source (readLine limit c).1 (readNodes limit (pastDollar c)).next.pos := by
  have within := within_of_start start
  have ahead := (reaches_pastDollar c).trans (readNodes_spec limit (pastDollar c)).1
  have encloses := readLine_encloses limit within
  constructor
  · refine ⟨ahead.pos_le, ?_⟩
    rw [← eq_seek (start.trans ahead)]
    exact (readNodes_spec limit (pastDollar c)).2
  · rw [readLine]
    exact congrArg trim (within.extract ahead).symm
  · intro n member
    obtain ⟨q, read, stop, first, ordered, last, ends⟩ := node_of_readLine start member
    refine ⟨q, read, stop, first, ordered, last, ?_, fun other => ?_⟩
    · refine (encloses n.position q).trans (or_iff_left fun blank => ?_)
      exact absurd blank.2.2 (by omega)
    · rcases ends with ⟨word, _⟩ | ⟨_, ink, ink'⟩
      · exact absurd word other
      · exact encloses_of_ink within first (by omega) (by omega) (by omega) ink ink'
  · intro e stopped
    obtain ⟨o, x, offset, first, last, found, _, _, ink⟩ := error_of_readLine start stopped
    refine ⟨o, offset, first, last, ?_, fun other => ?_⟩
    · refine (encloses o o).trans (or_congr_right (and_congr_right fun _ => ?_))
      exact ⟨fun both => Nat.le_antisymm both.2 both.1, fun same => ⟨first, Nat.le_of_eq same⟩⟩
    · rw [found] at other
      have ink : InkAt source o := ⟨x, found, ink fun same => other (congrArg some same)⟩
      exact encloses_of_ink within first (Nat.le_refl o) (Nat.le_succ o) last ink ink
  · exact enclosesReports_of_plain start

theorem exists_reaches_of_mem {r : Command} (member : r ∈ commandsFrom limit c) :
    ∃ d, c.Reaches d ∧ r = (read limit d).1 := by
  fun_induction commandsFrom limit c with
  | case1 => cases member
  | case2 c inside line ih =>
      rcases List.mem_cons.mp member with rfl | later
      · exact ⟨c, .refl c, rfl⟩
      · obtain ⟨d, ahead, same⟩ := ih later
        exact ⟨d, (Routine.closes_read limit c).1.trans ahead, same⟩

theorem ofComment_enclosesReports (limit : Int) (p : Nat) (text : List Char) :
    (ofComment p text).EnclosesReports limit source := by
  refine ⟨fun n member => ?_, nofun⟩
  obtain rfl := List.mem_singleton.mp member
  refine ⟨p + text.length, rfl, ?_⟩
  simp [Encloses, ofComment]

end
end Command

/-- The span of a command encloses a node or an error where ink stands around it in the line, so at
any node but a word, at an error but at a carriage return, and at all of them where white space is
only blanks and line ends. The span of a comment encloses it. -/
theorem commandsWithin_reported {limit : Int} {source : List Char} {c : Command}
    (among : c ∈ commandsWithin limit source) :
    c = .ofComment c.position (source.extract c.position c.stop) ∧
        c.EnclosesReports limit source ∨
      ∃ last, c.Reported limit source last := by
  obtain ⟨d, ahead, read⟩ := Command.exists_reaches_of_mem among
  have raw := raw_eq_extract among
  have first := ahead.trans (d.reaches_skipWhile isBlank)
  rw [Command.read] at read
  split at read
  · left
    have comment : c = .ofComment c.position c.raw := by
      rw [read]
      rfl
    rw [← raw, ← comment, comment]
    exact ⟨rfl, Command.ofComment_enclosesReports _ _ _⟩
  · right
    rw [read]
    exact ⟨_, Command.readLine_reported limit first⟩

theorem commandsWithin_reported_return : ∃ c ∈ commandsWithin 0 "say @s \r".toList,
    c.error.isSome ∧ ∃ last, c.Reported 0 "say @s \r".toList last := by
  have stopped : ∃ c ∈ commandsWithin 0 "say @s \r".toList, c.error.isSome := by decide +kernel
  obtain ⟨c, among, error⟩ := stopped
  rcases commandsWithin_reported among with ⟨comment, _⟩ | reported
  · rw [comment] at error
    cases error
  · exact ⟨c, among, error, reported⟩

/-- A no-break space makes a word, and is trimmed. -/
theorem not_enclosesReports :
    ¬∀ c ∈ commands "\u00a0x".toList, c.EnclosesReports nestingLimit.toNat "\u00a0x".toList := by
  decide +kernel

end ChatPreview
