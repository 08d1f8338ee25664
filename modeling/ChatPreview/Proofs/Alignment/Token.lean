import ChatPreview.Proofs.Alignment.LineEnd
import ChatPreview.Proofs.Alignment.Relocate
import Mathlib.Data.List.Find
/-!
Reading two texts side by side. An alignment relates the cursors of two texts so that what decides
how a node is read is the same on both; then both hold the same nodes, each at its own place.
-/
namespace ChatPreview
open Text Scan Token

/-- How the cursors of two texts go together while nodes are read. -/
structure Alignment (place : Nat → Nat) (R : Cursor → Cursor → Prop) : Prop where
  pos {c d : Cursor} : R c d → d.pos = place c.pos
  ordered {c d c' d' : Cursor} : R c d → R c' d' → c.pos < c'.pos → d.pos < d'.pos
  head {c d : Cursor} : R c d → (c.atLineEnd ∧ d.atLineEnd) ∨
    (¬c.atLineEnd ∧ ¬d.atLineEnd ∧ ∃ x s t, c.rest = x :: s ∧ d.rest = x :: t)
  starts {c d : Cursor} : R c d → Continuation.starts c.rest = Continuation.starts d.rest
  step {c d : Cursor} {x : Char} {s : List Char} : R c d → c.rest = x :: s → isBlank x = false →
    ¬c.atLineEnd → Continuation.starts c.rest = false → R (c.advance 1) (d.advance 1)
  skip {c d : Cursor} : R c d → R (skipSpace c) (skipSpace d)
  close {c d : Cursor} {quote : Char} {s t : List Char} : R c d → c.rest = quote :: s →
    d.rest = quote :: t → isQuote quote →
    Option.Rel (fun r r' => R (c.leave r) (d.leave r')) (afterString? quote s)
      (afterString? quote t)
  span {c d c' d' : Cursor} : R c d → R c' d' → c.Reaches c' → d.Reaches d' →
    joinLines (c.upTo c') = joinLines (d.upTo d')

namespace Alignment
variable {place : Nat → Nat} {R : Cursor → Cursor → Prop} {c d : Cursor}

abbrev Moved (place : Nat → Nat) (n m : Node) : Prop := m = n.relocate place

abbrev AllMoved (place : Nat → Nat) (ns ms : List Node) : Prop := ms = ns.map (·.relocate place)

theorem allMoved_of_forall₂ {ns ms : List Node} (each : List.Forall₂ (Moved place) ns ms) :
    AllMoved place ns ms := by
  induction each with
  | nil => rfl
  | cons first _ ih => rw [AllMoved, List.map_cons, ← ih, first]

theorem shrinks (h : Alignment place R) {c' d' : Cursor} (related : R c d) (related' : R c' d')
    (ahead : c.Reaches c') (ahead' : d.Reaches d') :
    c'.rest.length < c.rest.length ↔ d'.rest.length < d.rest.length := by
  have total := ahead.length_add
  have total' := ahead'.length_add
  have low := ahead.pos_le
  have low' := ahead'.pos_le
  rcases Nat.lt_or_ge c.pos c'.pos with further | same
  · have := h.ordered related related' further
    omega
  · have equal : c.pos = c'.pos := by omega
    have : d.pos = d'.pos := by rw [h.pos related, h.pos related', equal]
    omega

theorem head? (h : Alignment place R) {x : Char} (solid : Solid x) (related : R c d) :
    c.rest.head? = some x ↔ d.rest.head? = some x := by
  rcases h.head related with ⟨ended, ended'⟩ | ⟨_, _, y, s, t, split, split'⟩
  · exact iff_of_false (head_ne_of_atLineEnd ended solid) (head_ne_of_atLineEnd ended' solid)
  · rw [split, split', List.head?_cons, List.head?_cons]

theorem peek_any (h : Alignment place R) {p : Char → Bool} (solid : ∀ x, p x → Solid x)
    (related : R c d) : c.peek.any p = d.peek.any p := by
  have none {e : Cursor} (ended : e.atLineEnd) : e.peek.any p = false := by
    rw [Cursor.peek]
    cases split : e.rest with
    | nil => rfl
    | cons x s =>
        by_contra member
        have : p x := by simpa using member
        exact solid_head_of_inside split (solid x this) ended
  rcases h.head related with ⟨ended, ended'⟩ | ⟨_, _, x, s, t, split, split'⟩
  · rw [none ended, none ended']
  · rw [Cursor.peek, Cursor.peek, split, split']
    rfl

theorem atLineEnd (h : Alignment place R) (related : R c d) : c.atLineEnd ↔ d.atLineEnd := by
  rcases h.head related with ⟨ended, ended'⟩ | ⟨inside, inside', _⟩
  · exact iff_of_true ended ended'
  · exact iff_of_false inside inside'

theorem step_solid (h : Alignment place R) {x : Char} {s : List Char} (solid : Solid x)
    (related : R c d) (split : c.rest = x :: s) : R (c.advance 1) (d.advance 1) :=
  h.step related split solid.not_blank (solid_head_of_inside split solid)
    (split ▸ starts_of_solid solid)

theorem expect (h : Alignment place R) {x : Char} (solid : Solid x) :
    Agree R (fun _ _ => True) (expect [x]) (expect [x]) := by
  intro c d related
  by_cases first : c.rest.head? = some x
  · obtain ⟨s, split⟩ := List.head?_eq_some_iff.1 first
    obtain ⟨t, split'⟩ := List.head?_eq_some_iff.1 ((h.head? solid related).1 first)
    have left : Scan.expect [x] c = .ok [x] (c.advance 1) := by simp [Scan.expect, split]
    have right : Scan.expect [x] d = .ok [x] (d.advance 1) := by simp [Scan.expect, split']
    rw [left, right]
    exact .ok trivial (h.step_solid solid related split)
  · obtain ⟨e, c₁, failed⟩ := fails_expect first
    obtain ⟨e', d₁, failed'⟩ := fails_expect (mt (h.head? solid related).2 first)
    rw [failed, failed']
    exact .fail

theorem space_agree (h : Alignment place R) : Agree R (fun _ _ => True) space space :=
  fun _ _ related => .ok trivial (h.skip related)

theorem wordChars_agree (h : Alignment place R) {stops : Char → Bool} (breaks : Breaks stops)
    (related : R c d) : wordChars stops c.rest = wordChars stops d.rest ∧
      R (c.advance (wordChars stops c.rest).length) (d.advance (wordChars stops c.rest).length) := by
  generalize read : wordChars stops c.rest = word
  induction word generalizing c d with
  | nil =>
      refine ⟨?_, by simpa [Cursor.advance] using related⟩
      rcases h.head related with ⟨_, ended⟩ | ⟨_, _, x, s, t, split, split'⟩
      · exact (wordChars_atLineEnd breaks ended).symm
      · have same := h.starts related
        rw [split, split'] at same
        rw [split, wordChars, same] at read
        rw [split', wordChars]
        split at read <;> simp_all
  | cons y word ih =>
      rcases h.head related with ⟨ended, _⟩ | ⟨inside, _, x, s, t, split, split'⟩
      · rw [wordChars_atLineEnd breaks ended] at read
        cases read
      · have same := h.starts related
        rw [split, wordChars] at read
        split at read
        · cases read
        · rename_i free
          simp only [Bool.or_eq_true, not_or, Bool.not_eq_true] at free
          obtain ⟨rfl, tail⟩ := List.cons.inj read
          have after := h.step related split (breaks.not_blank free.1) inside (split ▸ free.2)
          have rest : (c.advance 1).rest = s := by simp [Cursor.advance, split]
          have rest' : (d.advance 1).rest = t := by simp [Cursor.advance, split']
          obtain ⟨equal, further⟩ := ih after (by rw [rest, tail])
          rw [c.advance_advance, d.advance_advance, Nat.add_comm] at further
          refine ⟨?_, further⟩
          have free' : Continuation.starts (x :: t) = false := by
            rw [← split', ← same, split, free.2]
          rw [split', wordChars, free.1, free', ← rest', ← equal]
          rfl

theorem atLeast_agree (h : Alignment place R) {k : CharClass} (solid : ∀ x, k.has x → Solid x)
    (least : Nat) : Agree R (fun _ _ => True) (atLeast least k) (atLeast least k) := by
  intro c d related
  obtain ⟨same, further⟩ := h.wordChars_agree (breaks_not solid) related
  rw [← takeWhile_eq_wordChars solid] at further
  rw [← takeWhile_eq_wordChars solid, ← takeWhile_eq_wordChars solid] at same
  unfold atLeast
  simp only [← same]
  split
  · exact .fail
  · exact .ok trivial further

theorem between_agree (h : Alignment place R) {c' d' : Cursor} (related : R c d)
    (related' : R c' d') (ahead : c.Reaches c') (ahead' : d.Reaches d') (kind : Kind)
    {ns ms : List Node} (children : AllMoved place ns ms) :
    Moved place (.between kind c c' ns) (.between kind d d' ms) := by
  rw [Moved, Node.between, Node.between, Node.relocate, Node.relocateAll_eq_map, children,
    h.pos related, h.span related related' ahead ahead']

theorem node_agree (h : Alignment place R) (kind : Kind) {s t : Scan (List Node)}
    (children : Agree R (AllMoved place) s t) (forward : Forward (node kind s))
    (forward' : Forward (node kind t)) : Agree R (Moved place) (node kind s) (node kind t) := by
  intro c d related
  cases left : s c with
  | ok ns c' =>
      obtain ⟨ms, d', right, moved, after⟩ := children.ok related left
      have read := @node_of_ok kind s c c' ns left
      have read' := @node_of_ok kind t d d' ms right
      rw [read, read']
      exact .ok (h.between_agree related after (forward read) (forward' read') kind moved) after
  | fail e c' =>
      obtain ⟨e', d', failed⟩ := children.fails related left
      simp only [node, left, failed]
      exact .fail

theorem word_agree (h : Alignment place R) {stops : Char → Bool} (breaks : Breaks stops) :
    Agree R (Moved place) (word stops) (word stops) := by
  intro c d related
  obtain ⟨same, further⟩ := h.wordChars_agree breaks related
  have quotes := h.peek_any (p := isQuote) (fun _ => solid_of_isQuote) related
  unfold word
  simp only [← same, ← quotes]
  split
  · exact .fail
  · split
    · exact .fail
    · refine .ok (h.between_agree related further ?_ ?_ .literal rfl) further
      · exact c.reaches_advance (wordChars_isPrefix stops c.rest).length_le
      · exact d.reaches_advance (same ▸ (wordChars_isPrefix stops d.rest).length_le)

theorem string_agree (h : Alignment place R) : Agree R (Moved place) string string := by
  intro c d related
  rcases h.head related with ⟨ended, ended'⟩ | ⟨_, _, quote, s, t, split, split'⟩
  · obtain ⟨e, c', failed⟩ := fails_string ended
    obtain ⟨e', d', failed'⟩ := fails_string ended'
    rw [failed, failed']
    exact .fail
  · unfold string
    simp only [split, split']
    by_cases opens : isQuote quote
    · have closes := h.close related split split' opens
      simp only [opens, if_true]
      cases left : afterString? quote s with
      | none =>
          rw [left] at closes
          cases right : afterString? quote t with
          | none => exact .fail
          | some r' => rw [right] at closes; cases closes
      | some r =>
          rw [left] at closes
          cases right : afterString? quote t with
          | none => rw [right] at closes; cases closes
          | some r' =>
              rw [right] at closes
              cases closes with
              | some after =>
                  have inside : r <:+ c.rest :=
                    split ▸ (afterString?_suffix left).trans (List.suffix_cons _ _)
                  have inside' : r' <:+ d.rest :=
                    split' ▸ (afterString?_suffix right).trans (List.suffix_cons _ _)
                  exact .ok (h.between_agree related after (c.reaches_leave inside)
                    (d.reaches_leave inside') .string rfl) after
    · simp only [opens]
      exact .fail

theorem isPrefixOf_singleton {x : Char} {s : List Char} :
    [x].isPrefixOf s ↔ s.head? = some x := by
  cases s with
  | nil => simp
  | cons y s => simp only [List.isPrefixOf, List.head?_cons, Option.some.injEq]; grind

theorem oneOf_agree (h : Alignment place R) {marks : List Char} (solid : ∀ x ∈ marks, Solid x) :
    Agree R (fun _ _ => True) (oneOf (marks.map ([·]))) (oneOf (marks.map ([·]))) := by
  intro c d related
  have same (x : Char) (member : x ∈ marks) : [x].isPrefixOf c.rest = [x].isPrefixOf d.rest := by
    rw [Bool.eq_iff_iff, isPrefixOf_singleton, isPrefixOf_singleton]
    exact h.head? (solid x member) related
  have found : (marks.map ([·])).find? (·.isPrefixOf c.rest) =
      (marks.map ([·])).find? (·.isPrefixOf d.rest) := by
    refine List.find?_congr fun text member => ?_
    obtain ⟨x, mark, rfl⟩ := List.mem_map.1 member
    exact same x mark
  unfold oneOf
  rw [← found]
  split
  · rename_i text first
    obtain ⟨x, member, rfl⟩ := List.mem_map.1 (List.mem_of_find?_eq_some first)
    have starts := List.find?_some first
    obtain ⟨s, split⟩ := List.head?_eq_some_iff.1 (isPrefixOf_singleton.1 starts)
    exact .ok trivial (h.step_solid (solid x member) related split)
  · exact .fail

theorem member_agree (h : Alignment place R) {k : CharClass} (solid : ∀ x, k.has x → Solid x) :
    Agree R (fun _ _ => True) (member k) (member k) := by
  intro c d related
  rcases h.head related with ⟨ended, ended'⟩ | ⟨_, _, x, s, t, split, split'⟩
  · obtain ⟨e, c', failed⟩ := fails_member ended solid
    obtain ⟨e', d', failed'⟩ := fails_member ended' solid
    rw [failed, failed']
    exact .fail
  · simp only [member, split, split']
    by_cases inClass : k.has x
    · simp only [inClass, if_true]
      exact .ok trivial (h.step_solid (solid x inClass) related split)
    · simp only [inClass]
      exact .fail

theorem allMoved_flatten {nss mss : List (List Node)}
    (each : List.Forall₂ (AllMoved place) nss mss) : AllMoved place nss.flatten mss.flatten := by
  induction each with
  | nil => rfl
  | cons first _ ih =>
      rw [AllMoved, List.flatten_cons, List.flatten_cons, List.map_append, ← ih, first]

def Inner (R : Cursor → Cursor → Prop) (place : Nat → Nat) (inner : Deeper) : Prop :=
  ∀ value ∈ inner, Agree R (Moved place) value value ∧ Forward value ∧
    ∀ c : Cursor, c.atLineEnd → (value c).Fails

theorem list_agree (h : Alignment place R) {α : Type} {V : α → α → Prop}
    {inner : Deeper} {item : Scan Node → Scan α}
    (each : ∀ value ∈ inner, Agree R V (item value) (item value))
    (forward : ∀ value ∈ inner, Forward (item value))
    (stuck : ∀ value ∈ inner, ∀ c : Cursor, c.atLineEnd → (item value c).Fails) :
    Agree R (List.Forall₂ V) (nested inner fun value => separated (item value) comma)
      (nested inner fun value => separated (item value) comma) := by
  cases inner with
  | error limit => exact agree_fail _ _
  | ok value =>
      have ahead := forward value rfl
      refine agree_separated (each value rfl) (h.expect (by decide)) (fun {c d} related => ?_)
        h.shrinks ahead ahead forward_comma forward_comma
      rcases h.head related with ⟨ended, ended'⟩ | ⟨_, _, x, s, t, split, split'⟩
      · exact .inr ⟨stuck value rfl c ended, stuck value rfl d ended'⟩
      · left
        rw [Cursor.atEnd, Cursor.atEnd, split, split']
        rfl

theorem argument_agree (h : Alignment place R) {value : Scan Node}
    (values : Agree R (Moved place) value value) :
    Agree R (fun _ _ => True) (argument value) (argument value) := by
  refine agree_bind h.space_agree fun _ _ _ => ?_
  refine agree_bind (h.word_agree breaks_endsValue) fun _ _ _ => ?_
  refine agree_bind h.space_agree fun _ _ _ => ?_
  refine agree_bind (h.expect (by decide)) fun _ _ _ => ?_
  refine agree_bind h.space_agree fun _ _ _ => ?_
  exact agree_bind (agree_attempt values) fun _ _ _ => h.space_agree

theorem arguments_agree (h : Alignment place R) {inner : Deeper}
    (values : Inner R place inner) :
    Agree R (fun _ _ => True) (arguments inner) (arguments inner) := by
  refine agree_bind (h.expect (by decide)) fun _ _ _ => ?_
  refine agree_bind h.space_agree fun _ _ _ => ?_
  have list := h.list_agree
    (fun value left => h.argument_agree (values value left).1)
    (fun value left => forward_argument (values value left).2.1)
    (fun value left c ended => fails_argument ended)
  refine agree_bind list fun _ _ _ => agree_bind h.space_agree fun _ _ _ => ?_
  exact agree_bind (h.expect (by decide)) fun _ _ _ => agree_pure trivial

theorem optionalArguments_agree (h : Alignment place R) {inner : Deeper}
    (values : Inner R place inner) :
    Agree R (fun _ _ => True) (optionalArguments inner) (optionalArguments inner) := by
  intro c d related
  have opens := h.head? (x := '[') (by decide) related
  unfold optionalArguments
  by_cases first : c.rest.head? = some '['
  · rw [if_pos first, if_pos (opens.1 first)]
    exact h.arguments_agree values related
  · rw [if_neg first, if_neg (mt opens.2 first)]
    exact .ok trivial related

theorem selectorEnd_agree (h : Alignment place R) :
    Agree R (AllMoved place) selectorEnd selectorEnd := by
  intro c d related
  have same : selectorEnds c.rest = selectorEnds d.rest := by
    unfold selectorEnds
    rw [h.starts related]
    rcases h.head related with ⟨ended, ended'⟩ | ⟨_, _, x, s, t, split, split'⟩
    · rw [head_all_of_atLineEnd breaks_endsValue ended, head_all_of_atLineEnd breaks_endsValue ended']
    · rw [split, split']
      rfl
  unfold selectorEnd
  rw [same]
  split
  · exact .ok rfl related
  · exact .fail

theorem selector_agree (h : Alignment place R) {inner : Deeper}
    (values : Inner R place inner) :
    Agree R (Moved place) (selector inner) (selector inner) := by
  have forward := (consumes_selector fun value left => (values value left).2.1).forward
  refine h.node_agree .selector ?_ forward forward
  refine agree_bind (h.expect (by decide)) fun _ _ _ => ?_
  refine agree_bind (h.member_agree (solid_of_class (by decide))) fun _ _ _ => ?_
  exact agree_bind (h.optionalArguments_agree values) fun _ _ _ => h.selectorEnd_agree

theorem element_agree (h : Alignment place R) {value : Scan Node}
    (values : Agree R (Moved place) value value) :
    Agree R (Moved place) (element value) (element value) := by
  refine agree_bind h.space_agree fun _ _ _ => ?_
  refine agree_bind values fun n m moved => ?_
  exact agree_bind h.space_agree fun _ _ _ => agree_pure moved

theorem array_agree (h : Alignment place R) {inner : Deeper}
    (values : Inner R place inner) : Agree R (Moved place) (array inner) (array inner) := by
  have forward := (consumes_array fun value left => (values value left).2.1).forward
  refine h.node_agree .array ?_ forward forward
  refine agree_bind (h.expect (by decide)) fun _ _ _ => ?_
  have list := h.list_agree (fun value left => h.element_agree (values value left).1)
    (fun value left => forward_element (values value left).2.1)
    (fun value left c ended => fails_element ended ((values value left).2.2 c ended))
  refine agree_bind list fun ns ms moved => agree_bind h.space_agree fun _ _ _ => ?_
  refine agree_bind (h.expect (by decide)) fun _ _ _ => agree_pure ?_
  exact allMoved_of_forall₂ moved

theorem run_agree (h : Alignment place R) {k : CharClass} (solid : ∀ x, k.has x → Solid x) :
    Agree R (Moved place) (node .literal (atLeast 1 k >>= fun _ => pure []))
      (node .literal (atLeast 1 k >>= fun _ => pure [])) := by
  refine h.node_agree .literal ?_ (forward_run k) (forward_run k)
  exact agree_bind (h.atLeast_agree solid 1) fun _ _ _ => agree_pure rfl

theorem key_agree (h : Alignment place R) :
    Agree R (Moved place) (firstOf [pathKey, plainKey]) (firstOf [pathKey, plainKey]) := by
  refine agree_firstOf (.cons ?_ (.cons ?_ .nil))
  · refine agree_bind (h.run_agree solid_of_path) fun n m moved => ?_
    refine agree_bind h.space_agree fun _ _ _ => ?_
    exact agree_bind (h.expect (by decide)) fun _ _ _ => agree_pure moved
  · refine agree_bind (V := Moved place) (agree_firstOf (.cons ?_ (.cons ?_ .nil))) ?_
    · exact h.run_agree solid_of_key
    · exact h.string_agree
    · intro n m moved
      refine agree_bind h.space_agree fun _ _ _ => ?_
      have marks := h.oneOf_agree (show ∀ x ∈ [':', '='], Solid x by simp [Solid])
      exact agree_bind marks fun _ _ _ => agree_pure moved

theorem entry_agree (h : Alignment place R) {value : Scan Node}
    (values : Agree R (Moved place) value value) :
    Agree R (AllMoved place) (entry value) (entry value) := by
  refine agree_bind h.space_agree fun _ _ _ => ?_
  refine agree_bind h.key_agree fun key key' movedKey => ?_
  refine agree_bind h.space_agree fun _ _ _ => ?_
  refine agree_bind values fun n m moved => ?_
  refine agree_bind h.space_agree fun _ _ _ => agree_pure ?_
  rw [AllMoved, movedKey, moved]
  rfl

theorem object_agree (h : Alignment place R) {inner : Deeper}
    (values : Inner R place inner) : Agree R (Moved place) (object inner) (object inner) := by
  have forward := (consumes_object fun value left => (values value left).2.1).forward
  refine h.node_agree .object ?_ forward forward
  refine agree_bind (h.expect (by decide)) fun _ _ _ => ?_
  have list := h.list_agree (fun value left => h.entry_agree (values value left).1)
    (fun value left => forward_entry (values value left).2.1)
    (fun value left c ended => fails_entry ended)
  refine agree_bind list fun nss mss moved => agree_bind h.space_agree fun _ _ _ => ?_
  refine agree_bind (h.expect (by decide)) fun _ _ _ => agree_pure ?_
  exact allMoved_flatten moved

theorem item_agree (h : Alignment place R) {stops : Char → Bool} (breaks : Breaks stops)
    {inner : Deeper} (values : Inner R place inner) :
    Agree R (Moved place) (item stops inner) (item stops inner) :=
  agree_firstOf (.cons (h.object_agree values) (.cons (h.array_agree values)
    (.cons h.string_agree (.cons (h.selector_agree values) (.cons (h.word_agree breaks) .nil)))))

theorem value_agree (h : Alignment place R) (limit : Int) (levels : Nat) :
    Agree R (Moved place) (value limit levels) (value limit levels) := by
  induction levels with
  | zero => exact value_eq limit 0 ▸ h.item_agree breaks_endsValue fun value left => by cases left
  | succ levels ih =>
      refine value_eq limit (levels + 1) ▸ h.item_agree breaks_endsValue fun value left => ?_
      cases left
      exact ⟨ih, (consumes_value limit levels).forward, fun c ended => fails_value ended limit levels⟩

theorem inside_agree (h : Alignment place R) (limit : Int) (levels : Nat) :
    Inner R place (inside limit levels) := by
  intro value left
  cases levels with
  | zero => cases left
  | succ levels =>
      cases left
      exact ⟨h.value_agree limit levels, (consumes_value limit levels).forward,
        fun c ended => fails_value ended limit levels⟩

theorem top_agree (h : Alignment place R) (limit : Int) :
    Agree R (Moved place) (top limit) (top limit) := by
  intro c d related
  have outcomes := h.item_agree breaks_endsWord (h.inside_agree limit limit.toNat) related
  unfold top
  generalize item endsWord (inside limit limit.toNat) c = left at outcomes
  generalize item endsWord (inside limit limit.toNat) d = right at outcomes
  cases outcomes with
  | ok moved after => exact .ok moved after
  | fail => exact .fail

end Alignment

/-- Two readings without error, or with one error at places that go together, before `stop`. -/
inductive Displaced (place : Nat → Nat) (stop : Nat) : Option Failure → Option Failure → Prop where
  | none : Displaced place stop none none
  | some (cause : Cause) {p : Nat} (inside : p < stop) :
      Displaced place stop (some ⟨cause, p⟩) (some ⟨cause, place p⟩)

namespace Alignment
variable {place : Nat → Nat} {R E : Cursor → Cursor → Prop} {c d : Cursor}

/-- Both bodies hold the same nodes, with the same error; they end as the lines do. -/
theorem readNodes_agree (h : Alignment place R)
    (lines : ∀ {c d}, R c d → E (Command.skipLine c) (Command.skipLine d)) (limit : Int)
    (related : R c d) :
    AllMoved place (Command.readNodes limit c).nodes (Command.readNodes limit d).nodes ∧
      Displaced place (c.pos + c.rest.length) (Command.readNodes limit c).error
        (Command.readNodes limit d).error ∧
      E (Command.readNodes limit c).next (Command.readNodes limit d).next := by
  revert d
  fun_induction Command.readNodes limit c with
  | case1 c c₁ =>
      rename_i ended
      intro d related
      have after : R c₁ (skipSpace d) := h.skip related
      have ended' : (skipSpace d).atLineEnd := (h.atLineEnd after).1 ended
      rw [Command.readNodes_of_end ended']
      refine ⟨rfl, .none, ?_⟩
      have last := lines after
      rwa [Command.skipLine_atLineEnd ended, Command.skipLine_atLineEnd ended'] at last
  | case2 c c₁ inside e c₂ =>
      rename_i failed
      intro d related
      have after : R c₁ (skipSpace d) := h.skip related
      have inside' : ¬(skipSpace d).atLineEnd := mt (h.atLineEnd after).2 inside
      rcases h.head after with ⟨ended, _⟩ | ⟨_, _, x, s, t, split, split'⟩
      · exact absurd ended inside
      · obtain ⟨e', d₂, failed'⟩ := (h.top_agree limit).fails after failed
        obtain ⟨rfl, rfl⟩ := top_fail failed
        obtain ⟨rfl, rfl⟩ := top_fail failed'
        rw [Command.readNodes_of_fail inside' failed']
        have same : c₁.peek = (skipSpace d).peek := by
          rw [Cursor.peek, Cursor.peek, split, split']
          rfl
        have bound : c₁.pos < c.pos + c.rest.length := by
          rw [(reaches_skipSpace c).length_add]
          change c₁.pos < c₁.pos + c₁.rest.length
          rw [split, List.length_cons]
          omega
        rw [same, h.pos after]
        exact ⟨rfl, .some _ bound, lines after⟩
  | case3 c c₁ inside n c₂ =>
      rename_i read body ih
      intro d related
      have after : R c₁ (skipSpace d) := h.skip related
      have inside' : ¬(skipSpace d).atLineEnd := mt (h.atLineEnd after).2 inside
      obtain ⟨m, d₂, read', moved, next⟩ := (h.top_agree limit).ok after read
      rw [Command.readNodes_of_ok inside' read']
      have total := ((reaches_skipSpace c).trans (consumes_top limit read).1).length_add
      obtain ⟨nodes, error, last⟩ := ih next
      refine ⟨?_, ?_, last⟩
      · rw [AllMoved, List.map_cons, ← nodes, ← moved]
      · rwa [total]

end Alignment
end ChatPreview
