import ChatPreview.Proofs.Line.Commands
import ChatPreview.Proofs.Nodes.Equations
/-!
Commands under two limits of nesting: what a lower limit reads without error is the same under a
higher one, and where commands start and end depends on no limit.
-/
namespace ChatPreview
open Text Scan Token

section
variable {inner inner' inner₂ : Deeper} {stops : Char → Bool} {c d e : Cursor}
  {n m : Node}

/-! ## Where a node may start -/

theorem skipSpace_of_solid {x : Char} (head : c.rest.head? = some x) (solid : Solid x) :
    skipSpace c = c := by
  rcases List.head?_eq_some_iff.1 head with ⟨s, split⟩
  exact skipSpace_of_head split solid.not_blank (split ▸ starts_of_solid solid)

theorem skipSpace_of_word (breaks : Breaks stops) (read : word stops c = .ok n d) :
    skipSpace c = c := by
  have nonempty := (word_eq_ok.1 read).2.1
  cases split : c.rest with
  | nil => exact skipSpace_atLineEnd (atLineEnd_iff.2 (.inl split))
  | cons x s =>
      rw [split, wordChars] at nonempty
      by_cases ends : stops x || Continuation.starts (x :: s)
      · rw [if_pos ends] at nonempty
        exact absurd rfl nonempty
      · rw [Bool.not_eq_true, Bool.or_eq_false_iff] at ends
        exact skipSpace_of_head split (breaks.not_blank ends.1) (split ▸ ends.2)

theorem skipSpace_of_item (breaks : Breaks stops) (read : item stops inner c = .ok n d) :
    skipSpace c = c := by
  rcases item_cases read with object | array | string | selector | word
  · exact skipSpace_of_solid (opens_of_object object) (by decide)
  · exact skipSpace_of_solid (opens_of_array array) (by decide)
  · rcases opens_of_string string with ⟨x, head, quote⟩
    exact skipSpace_of_solid head (solid_of_isQuote quote)
  · rcases selector_eq_ok.1 selector with ⟨letter, s, split, _⟩
    exact skipSpace_of_head split rfl (split ▸ starts_of_solid (by decide))
  · exact skipSpace_of_word breaks word

/-! ## Selectors whose arguments cannot be read -/

theorem wordChars_of_ends {s : List Char} (ends : selectorEnds s) : wordChars endsValue s = [] := by
  cases s with
  | nil => rfl
  | cons x s =>
      rw [selectorEnds, List.head?_cons, Option.all_some] at ends
      rw [wordChars, if_pos ends]

theorem word_of_bare_selector {letter : Char} {s : List Char} (split : c.rest = '@' :: letter :: s)
    (target : selectorClass.has letter) (ends : selectorEnds s) :
    ∃ m, word endsValue c = .ok m (c.advance 2) := by
  have chars : wordChars endsValue c.rest = ['@', letter] := by
    rw [split, wordChars, wordChars, starts_of_solid (by decide),
      starts_of_solid (solid_of_class (by decide) letter target), delimits_endsValue.mark,
      delimits_endsValue.letter letter target, wordChars_of_ends ends]
    rfl
  refine ⟨_, word_eq_ok.2 ⟨?_, ?_, ?_, rfl⟩⟩
  · rw [Cursor.peek, split]
    rfl
  · rw [chars]
    exact List.cons_ne_nil _ _
  · rw [chars]
    rfl

theorem item_before_equals (read : item endsValue inner c = .ok n d)
    (name : word endsValue c = .ok m e) (equals : (skipSpace e).rest.head? = some '=') : d = e := by
  have noBracket := opens_of_word delimits_endsValue name
  rcases item_cases read with object | array | string | selector | word
  · exact absurd (.inl (opens_of_object object)) noBracket
  · exact absurd (.inr (opens_of_array array)) noBracket
  · rcases fails_string_of_word name with ⟨f, g, failed⟩
    rw [failed] at string
    cases string
  · rcases selector_eq_ok.1 selector with ⟨letter, s, split, target, given, ends, _⟩
    have rest : (c.advance 2).rest = s := by rw [Cursor.advance, split]; rfl
    rcases optionalArguments_eq_ok.1 given with ⟨bracket, _⟩ | ⟨_, same⟩
    · rcases List.head?_eq_some_iff.1 bracket with ⟨t, opened⟩
      rw [rest] at opened
      rcases word_of_selector delimits_endsValue (opened ▸ split) target with ⟨_, e', name', ended⟩
      rw [name] at name'
      cases name'
      have atBracket : e.AtBracket := .inr (by rw [ended]; rfl)
      rw [atBracket.skipSpace, ended] at equals
      cases equals
    · rw [same, rest] at ends
      rcases word_of_bare_selector split target ends with ⟨m', name'⟩
      rw [name] at name'
      cases name'
      exact same
  · rw [name] at word
    cases word
    rfl

def Valued (inner : Deeper) : Prop := ∀ v ∈ inner, ∃ inner₂, v = item endsValue inner₂

theorem valued_inside (limit : Int) (levels : Nat) : Valued (inside limit levels) := by
  intro v left
  cases levels with
  | zero => cases left
  | succ levels =>
      cases left
      exact ⟨inside limit levels, value_eq limit levels⟩

theorem arguments_of_closed {v : Scan Node} (left : v ∈ inner) (head : c.rest.head? = some '[')
    (closed : (skipSpace (c.advance 1)).rest.head? = some ']') :
    arguments inner c = .ok () ((skipSpace (c.advance 1)).advance 1) := by
  have stays := skipSpace_of_solid closed (by decide)
  have stuck : (argument v (skipSpace (c.advance 1))).Fails := by
    apply fails_bind_of_ok (a := ()) (d := skipSpace (c.advance 1))
    · rw [space, stays]
    · exact fails_bind (fails_word_of_head closed rfl)
  refine arguments_eq_ok.2 ⟨v, left, [], _, head, separated_of_fails stuck, ?_, ?_⟩
  · rw [stays]
    exact closed
  · rw [stays]

theorem fails_array_of_arguments {u : Unit} (valued : Valued inner) (short : (arguments inner c).Fails)
    (long : arguments inner' c = .ok u d) : (array inner c).Fails := by
  cases read : array inner c with
  | fail f g => exact ⟨f, g, rfl⟩
  | ok n g =>
      exfalso
      rcases array_eq_ok.1 read with ⟨v, left, items, f, head, list, closed, _⟩
      rcases arguments_eq_ok.1 long with ⟨w, _, us, f', _, list', closed', _⟩
      have notClosed : (skipSpace (c.advance 1)).rest.head? ≠ some ']' := by
        intro empty
        rcases short with ⟨f, g, failed⟩
        rw [arguments_of_closed left head empty] at failed
        cases failed
      rcases separated_cases list with ⟨_, rfl, _⟩ | ⟨n, _, e, first, _, ends⟩
      · exact notClosed closed
      · rcases valued v left with ⟨inner₂, rfl⟩
        rcases element_eq_ok.1 first with ⟨e₁, value, rfl⟩
        have stays := skipSpace_of_item breaks_endsValue value
        rcases separated_cases list' with ⟨_, rfl, _⟩ | ⟨_, _, _, given, _, _⟩
        · rw [stays] at closed'
          exact notClosed closed'
        · rcases argument_eq_ok.1 given with ⟨m, e₂, _, _, name, equals, _⟩
          rw [stays] at name
          have same := item_before_equals value name equals
          rw [← same] at equals
          rcases ends with ⟨_, rfl, _⟩ | comma
          · rw [skipSpace_of_solid equals (by decide), equals] at closed
            cases closed
          · rw [equals] at comma
            cases comma

/-- A selector that a level is missing for is read as a word, and then nothing can be read at the
bracket of its arguments. -/
theorem stuck_of_selector (valued : Valued inner) (narrows : NarrowsInner inner inner')
    (short : (selector inner c).Fails) (long : selector inner' c = .ok n d) :
    ∃ m e, item endsWord inner c = .ok m e ∧ e.AtBracket ∧ (item endsWord inner e).Fails := by
  -- What is read instead is a word, and nothing can be read at the bracket behind it.
  rcases selector_differs short long with ⟨letter, s, split, target⟩
  rcases word_of_selector delimits_endsWord split target with ⟨m, e, word, rest⟩
  have head : e.rest.head? = some '[' := by rw [rest]; rfl
  have mark : c.rest.head? = some '@' := by rw [split]; rfl
  have there : e = c.advance 2 := by
    have ahead : c.Reaches (c.advance 2) := c.reaches_advance (by simp [split])
    have next : (c.advance 2).rest = '[' :: s := by rw [Cursor.advance, split]; rfl
    exact (consumes_word _ word).1.eq_of_rest_eq ahead (rest.trans next.symm)
  rcases selector_eq_ok.1 long with ⟨_, _, _, listed, given, ends, rfl⟩
  rw [← there] at given
  rcases optionalArguments_eq_ok.1 given with ⟨_, given⟩ | ⟨other, _⟩
  · have failed : (arguments inner e).Fails := by
      cases read : arguments inner e with
      | fail f g => exact ⟨f, g, rfl⟩
      | ok u g =>
          have wider := narrows.arguments read
          rw [given] at wider
          cases wider
          have whole : selector inner c = .ok (.between .selector c d []) d := by
            refine selector_eq_ok.2 ⟨letter, _, split, target, ?_, ends, rfl⟩
            rw [← there]
            exact optionalArguments_eq_ok.2 (.inl ⟨head, read⟩)
          rcases short with ⟨f, g, failed⟩
          rw [failed] at whole
          cases whole
    refine ⟨m, e, ?_, .inr head, fails_firstOf fun t member => ?_⟩
    · rw [item_of_mark mark, firstOf_of_fails short, firstOf_of_ok word]
    · simp only [List.mem_cons, List.not_mem_nil, or_false] at member
      rcases member with rfl | rfl | rfl | rfl | rfl
      · exact fails_node_of_head (head_ne head (by decide))
      · exact fails_array_of_arguments valued failed given
      · exact fails_string_of_head head (by decide)
      · exact fails_node_of_head (head_ne head (by decide))
      · exact fails_word_of_head head rfl
  · exact absurd head other

end

section
variable {limit limit' : Int} {c d : Cursor} {n : Node}

/-- More levels change no node, unless reading stops right after it. -/
theorem top_of_more_or_stuck (le : limit ≤ limit') (read : top limit c = .ok n d) :
    top limit' c = .ok n d ∨ (d.AtBracket ∧ (top limit d).Fails) := by
  have narrows : NarrowsInner (inside limit limit.toNat) (inside limit' limit'.toNat) :=
    narrowsInner_inside (Int.toNat_le_toNat le)
  have item : item endsWord (inside limit limit.toNat) c = .ok n d := by
    unfold top at read
    split at read <;> cases read
    assumption
  by_cases mark : c.rest.head? = some '@'
  · cases long : selector (inside limit' limit'.toNat) c with
    | fail e f =>
        have short : (selector (inside limit limit.toNat) c).Fails := by
          cases short : selector (inside limit limit.toNat) c with
          | fail e f => exact ⟨e, f, rfl⟩
          | ok m e =>
              rw [narrows.selector short] at long
              cases long
        rw [item_of_mark mark, firstOf_of_fails short] at item
        apply Or.inl
        apply top_of_ok
        rw [item_of_mark mark, firstOf_of_fails ⟨e, f, long⟩, item]
    | ok m e =>
        cases short : selector (inside limit limit.toNat) c with
        | ok m' e' =>
            rw [item_of_mark mark, firstOf_of_ok short] at item
            cases item
            apply Or.inl
            apply top_of_ok
            rw [item_of_mark mark, firstOf_of_ok (narrows.selector short)]
        | fail f g =>
            rcases stuck_of_selector (valued_inside limit _) narrows ⟨f, g, short⟩ long with
              ⟨m', e', word, bracket, failed⟩
            rw [item] at word
            cases word
            rcases failed with ⟨f', g', failed⟩
            refine .inr ⟨bracket, ?_⟩
            rw [top, failed]
            exact ⟨_, _, rfl⟩
  · exact .inl (top_of_ok (narrows.item_of_ok delimits_endsWord mark item))

end

/-! ## Lines -/

/-- Whether a command is as it is under a lower limit, but for what that limit could not read. -/
structure Widens (c d : Command) : Prop where
  raw : d.raw = c.raw
  position : d.position = c.position
  stop : d.stop = c.stop
  isMacro : d.isMacro = c.isMacro
  whole : c.error = none → d = c

theorem Widens.refl (c : Command) : Widens c c := ⟨rfl, rfl, rfl, rfl, fun _ => rfl⟩

namespace Command
variable {limit limit' : Int} {c : Cursor}

theorem readNodes_of_more (le : limit ≤ limit') (whole : (readNodes limit c).error = none) :
    readNodes limit' c = readNodes limit c := by
  fun_induction readNodes limit c with
  | case1 c c₁ ended => exact readNodes_of_end ended
  | case2 => cases whole
  | case3 c c₁ inside n c₂ read body ih =>
      have later : (readNodes limit c₂).error = none := whole
      rcases top_of_more_or_stuck le read with same | ⟨bracket, e, f, failed⟩
      · rw [readNodes_of_ok inside same, ih later]
      · -- the bracket that could not be read leaves an error
        have onward : ¬(skipSpace c₂).atLineEnd := by
          rw [bracket.skipSpace]
          rcases bracket with head | head
          · exact fun ended => head_ne_of_atLineEnd ended (by decide) head
          · exact fun ended => head_ne_of_atLineEnd ended (by decide) head
        rw [readNodes_of_fail onward (bracket.skipSpace.symm ▸ failed)] at later
        cases later

theorem readLine_widens (le : limit ≤ limit') (joined : Joined c.rest) :
    Widens (readLine limit c).1 (readLine limit' c).1 := by
  have ended (k : Int) := (readNodes_before k (pastDollar_before (.alone joined))).2.2.2
  have ahead (k : Int) := (readNodes_spec k (pastDollar c)).1
  have next : (readNodes limit' (pastDollar c)).next = (readNodes limit (pastDollar c)).next :=
    (ahead limit').eq_of_rest_eq (ahead limit) ((ended limit').trans (ended limit).symm)
  constructor
  · simp only [readLine, next]
  · simp only [readLine, next]
  · simp only [readLine, next]
  · rfl
  · intro whole
    rw [readLine, readLine, readNodes_of_more le whole]

theorem read_widens (le : limit ≤ limit') {source : List Char} {ls : List (List Char)}
    (lines : Lines source ls) (p : Nat) :
    ∀ line ∈ placed p ls, Widens (read limit line).1 (read limit' line).1 := by
  intro line member
  rcases exists_before lines p line member with comment | ⟨tail, alone, before, code⟩
  · have hash : (line.skipWhile Text.isBlank).rest.head? = some '#' := by
      rwa [Cursor.skipWhile_rest]
    rw [read, read, if_pos hash, if_pos hash]
    exact .refl _
  · have other : (alone.skipWhile Text.isBlank).rest.head? ≠ some '#' := by
      rwa [Cursor.skipWhile_rest]
    rw [(read_before limit before code).1, (read_before limit' before code).1, read, read,
      if_neg other, if_neg other]
    exact readLine_widens le before.blanks.joined

end Command

/-- The depth limit is conservative: a higher limit moves no command, and leaves every command that
is read without error as it is. -/
theorem commandsWithin_widens (source : List Char) {limit limit' : Int} (le : limit ≤ limit') :
    List.Forall₂ Widens (commandsWithin limit source) (commandsWithin limit' source) := by
  rcases exists_lines source with ⟨ls, lines⟩
  have read (limit : Int) : commandsWithin limit source = _ :=
    (commandsFrom_lines limit lines 0).1
  rw [read, read, List.forall₂_map_left_iff, List.forall₂_map_right_iff, List.forall₂_same]
  exact Command.read_widens le lines 0

/-- A selector that the lower limit leaves unread, in a line before one that it reads. -/
theorem commandsWithin_widens_selector : (0 : Int) ≤ nestingLimit ∧
    List.Forall₂ Widens (commandsWithin 0 "say @e[tag=x]\nsay hi".toList)
      (commandsWithin nestingLimit "say @e[tag=x]\nsay hi".toList) := by
  have le : (0 : Int) ≤ nestingLimit := by decide
  exact ⟨le, commandsWithin_widens _ le⟩

end ChatPreview
