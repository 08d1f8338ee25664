import ChatPreview.Proofs.Message.Value
/-!
Tokens read with few levels of nesting are read alike with more. Where a level is missing, what is
read instead stops before a bracket, which can follow nothing in a list.
-/
namespace ChatPreview
open Text Scan Token

def Cursor.AtBracket (c : Cursor) : Prop := c.rest.head? = some '\x7b' ∨ c.rest.head? = some '['

def isCloser (x : Char) : Bool := x == '\x7d' || x == ']'

theorem isCloser_iff {x : Char} : isCloser x ↔ x = '\x7d' ∨ x = ']' := by
  rw [isCloser, Bool.or_eq_true, beq_iff_eq, beq_iff_eq]

theorem solid_of_isCloser {x : Char} (closes : isCloser x) : Solid x := by
  rw [isCloser_iff] at closes
  rcases closes with rfl | rfl <;> decide

namespace Cursor.AtBracket
variable {c : Cursor}

theorem not_closer (h : c.AtBracket) {x : Char} (closes : isCloser x) : c.rest.head? ≠ some x := by
  rintro head
  rw [AtBracket, head] at h
  rcases h with same | same <;> cases same <;> cases closes

theorem skipSpace (h : c.AtBracket) : Token.skipSpace c = c := by
  rcases h with head | head
  · obtain ⟨s, split⟩ := List.head?_eq_some_iff.1 head
    exact skipSpace_of_head split rfl (split ▸ starts_of_solid (by decide))
  · obtain ⟨s, split⟩ := List.head?_eq_some_iff.1 head
    exact skipSpace_of_head split rfl (split ▸ starts_of_solid (by decide))

theorem fails_comma (h : c.AtBracket) : (comma c).Fails := by
  apply fails_expect
  rintro head
  rw [AtBracket, head] at h
  rcases h with same | same <;> cases same

end Cursor.AtBracket

/-- Whether `w` reads what `v` reads, unless a bracket is in the way. -/
structure Narrows (v w : Scan Node) : Prop where
  ok ⦃c : Cursor⦄ ⦃n : Node⦄ ⦃d : Cursor⦄ (read : v c = .ok n d) : w c = .ok n d ∨ d.AtBracket
  fails ⦃c : Cursor⦄ (failed : (v c).Fails) : (w c).Fails ∨ c.AtBracket

structure NarrowsPart {α : Type} (close : Char) (s t : Scan α) : Prop where
  ok ⦃c : Cursor⦄ ⦃a : α⦄ ⦃d : Cursor⦄ (read : s c = .ok a d) : t c = .ok a d ∨ d.AtBracket
  fails ⦃c : Cursor⦄ (failed : (s c).Fails) (closed : (skipSpace c).rest.head? = some close) :
    (t c).Fails

section
variable {α β : Type} {close : Char} {s t : Scan α} {v w : Scan Node} {c d : Cursor}

theorem NarrowsPart.separated (h : NarrowsPart close s t) (closes : isCloser close) {as : List α}
    (read : separated s comma c = .ok as d) (closed : (skipSpace d).rest.head? = some close) :
    separated t comma c = .ok as d := by
  fun_induction Scan.separated s comma c generalizing as d with
  | case1 c ended =>
      cases read
      exact separated_of_atEnd ended
  | case2 c inside e c₁ failed =>
      cases read
      exact separated_of_fails (h.fails ⟨e, c₁, failed⟩ closed)
  | case3 c inside a c₁ first e c₂ failed =>
      cases read
      cases h.ok first with
      | inl same => exact separated_of_last inside same failed
      | inr bracket =>
          rw [bracket.skipSpace] at closed
          exact absurd closed (bracket.not_closer closes)
  | case4 c inside a c₁ first b c₂ apart shorter as c₃ tail ih =>
      cases read
      cases h.ok first with
      | inl same => exact separated_of_more inside same apart shorter (ih tail closed)
      | inr bracket =>
          obtain ⟨e, c₃, failed⟩ := bracket.fails_comma
          rw [failed] at apart
          cases apart
  | case5 => cases read
  | case6 c inside a c₁ first b c₂ apart longer =>
      cases read
      cases h.ok first with
      | inl same =>
          rw [Scan.separated, if_neg inside, same]
          simp only [apart, if_neg longer]
      | inr bracket =>
          obtain ⟨e, c₃, failed⟩ := bracket.fails_comma
          rw [failed] at apart
          cases apart

/-! ## Parts of a list -/

theorem fails_of_bind {f : α → Scan β} (failed : ((s >>= f) c).Fails) :
    (s c).Fails ∨ ∃ a d, s c = .ok a d ∧ (f a d).Fails := by
  cases read : s c with
  | ok a d =>
      rw [bind_of_ok read] at failed
      exact .inr ⟨a, d, rfl, failed⟩
  | fail e d => exact .inl ⟨e, d, rfl⟩

theorem rest_of_expect {x : Char} {got : List Char} (read : expect [x] c = .ok got d) :
    c.rest = x :: d.rest := by
  have head : c.rest.head? = some x := by
    by_contra other
    obtain ⟨e, f, failed⟩ := fails_expect other
    rw [failed] at read
    cases read
  rw [expect_of_head head] at read
  cases read
  obtain ⟨s, split⟩ := List.head?_eq_some_iff.1 head
  rw [Cursor.advance, split]
  rfl

theorem rest_of_member {k : CharClass} {got : List Char} (read : member k c = .ok got d) :
    ∃ x, c.rest = x :: d.rest ∧ k.has x := by
  unfold member at read
  split at read
  · rename_i x s split
    split at read
    · cases read
      exact ⟨x, by rw [split, Cursor.advance, split]; rfl, ‹_›⟩
    · cases read
  · cases read

namespace Narrows

theorem spaced (h : Narrows v w) (f : Node → α) {a : α}
    (read : (v >>= fun n => space >>= fun _ => pure (f n)) c = .ok a d) :
    (w >>= fun n => space >>= fun _ => pure (f n)) c = .ok a d ∨ d.AtBracket := by
  obtain ⟨n, e, first, rest⟩ := bind_eq_ok.1 read
  cases h.ok first with
  | inl same => exact .inl (bind_eq_ok.2 ⟨n, e, same, rest⟩)
  | inr bracket =>
      cases rest
      rw [bracket.skipSpace]
      exact .inr bracket

theorem attempted (h : Narrows v w) {u : Unit}
    (read : (attempt v >>= fun _ => space) c = .ok u d) :
    (attempt w >>= fun _ => space) c = .ok u d ∨ d.AtBracket := by
  rw [bind_apply, attempt] at read ⊢
  cases first : v c with
  | ok n e =>
      rw [first] at read
      cases read
      cases h.ok first with
      | inl same =>
          rw [same]
          exact .inl rfl
      | inr bracket =>
          rw [bracket.skipSpace]
          exact .inr bracket
  | fail e c₁ =>
      rw [first] at read
      cases read
      cases h.fails ⟨e, c₁, first⟩ with
      | inl failed =>
          obtain ⟨e', c₂, failed⟩ := failed
          rw [failed]
          exact .inl rfl
      | inr bracket =>
          rw [bracket.skipSpace]
          exact .inr bracket

theorem element (h : Narrows v w) : NarrowsPart ']' (element v) (element w) where
  ok := by
    intro c n d read
    exact h.spaced id read
  fails := by
    intro c failed closed
    have first : (v (skipSpace c)).Fails := by
      cases fails_of_bind (s := v) (c := skipSpace c) failed with
      | inl failed => exact failed
      | inr later =>
          obtain ⟨n, d, _, e, f, ended⟩ := later
          cases ended
    cases h.fails first with
    | inl failed => exact fails_bind_of_ok rfl (fails_bind failed)
    | inr bracket => exact absurd closed (bracket.not_closer rfl)

theorem entry (h : Narrows v w) : NarrowsPart '\x7d' (entry v) (entry w) where
  ok := by
    intro c ns d read
    obtain ⟨key, e, name, rest⟩ := bind_eq_ok.1
      (show (firstOf [pathKey, plainKey] >>= _) (skipSpace c) = _ from read)
    cases h.spaced (fun item => [key, item]) (c := skipSpace e) rest with
    | inl same => exact .inl (bind_eq_ok.2 ⟨(), skipSpace c, rfl, bind_eq_ok.2 ⟨key, e, name, same⟩⟩)
    | inr bracket => exact .inr bracket
  fails := by
    intro c _ closed
    exact fails_bind_of_ok rfl (fails_bind (Matches.fails_key_of_close closed))

theorem argument (h : Narrows v w) : NarrowsPart ']' (argument v) (argument w) where
  ok := by
    intro c u d read
    obtain ⟨name, e, word, rest⟩ := bind_eq_ok.1
      (show (word endsValue >>= _) (skipSpace c) = _ from read)
    obtain ⟨mark, f, equals, rest⟩ := bind_eq_ok.1
      (show (expect ['='] >>= _) (skipSpace e) = _ from rest)
    cases h.attempted (c := skipSpace f) rest with
    | inl same =>
        refine .inl (bind_eq_ok.2 ⟨(), skipSpace c, rfl, bind_eq_ok.2 ⟨name, e, word, ?_⟩⟩)
        exact bind_eq_ok.2 ⟨(), skipSpace e, rfl, bind_eq_ok.2 ⟨mark, f, equals, same⟩⟩
    | inr bracket => exact .inr bracket
  fails := by
    intro c _ closed
    exact fails_bind_of_ok rfl (fails_bind (fails_word_of_head closed rfl))

end Narrows

/-! ## Tokens -/

/-- Whether there is a level more to be read where there is one, and none is read differently. -/
def NarrowsInner (inner inner' : Deeper) : Prop :=
  ∀ v ∈ inner, ∃ w ∈ inner', Narrows v w

section
variable {inner inner' : Deeper} {n : Node}

theorem NarrowsInner.list (h : NarrowsInner inner inner') (closes : isCloser close)
    {part : Scan Node → Scan α} (parts : ∀ v w, Narrows v w → NarrowsPart close (part v) (part w))
    (g : List α → β) {b : β}
    (read : (nested inner (fun v => separated (part v) comma) >>= fun as =>
      space >>= fun _ => expect [close] >>= fun _ => pure (g as)) c = .ok b d) :
    (nested inner' (fun v => separated (part v) comma) >>= fun as =>
      space >>= fun _ => expect [close] >>= fun _ => pure (g as)) c = .ok b d := by
  obtain ⟨as, e, first, rest⟩ := bind_eq_ok.1 read
  obtain ⟨got, f, last, _⟩ := bind_eq_ok.1
    (show (expect [close] >>= fun _ => pure (g as)) (skipSpace e) = _ from rest)
  have closed : (skipSpace e).rest.head? = some close := by rw [rest_of_expect last]; rfl
  cases inner with
  | error limit => cases first
  | ok v =>
      obtain ⟨w, left, narrows⟩ := h v rfl
      cases left
      exact bind_eq_ok.2 ⟨as, e, (parts v w narrows).separated closes first closed, rest⟩

theorem NarrowsInner.object (h : NarrowsInner inner inner') (read : object inner c = .ok n d) :
    object inner' c = .ok n d := by
  obtain ⟨children, body, rfl⟩ := node_eq_ok.1 read
  obtain ⟨mark, e, opening, rest⟩ := bind_eq_ok.1 body
  have list := h.list rfl (fun _ _ narrows => narrows.entry) List.flatten rest
  exact node_of_ok (bind_eq_ok.2 ⟨mark, e, opening, list⟩)

theorem NarrowsInner.array (h : NarrowsInner inner inner') (read : array inner c = .ok n d) :
    array inner' c = .ok n d := by
  obtain ⟨children, body, rfl⟩ := node_eq_ok.1 read
  obtain ⟨mark, e, opening, rest⟩ := bind_eq_ok.1 body
  have list := h.list rfl (fun _ _ narrows => narrows.element) id rest
  exact node_of_ok (bind_eq_ok.2 ⟨mark, e, opening, list⟩)

theorem NarrowsInner.arguments (h : NarrowsInner inner inner') {u : Unit}
    (read : arguments inner c = .ok u d) : arguments inner' c = .ok u d := by
  obtain ⟨mark, e, opening, rest⟩ := bind_eq_ok.1 read
  have list := h.list rfl (fun _ _ narrows => narrows.argument) (fun _ => ())
    (c := skipSpace e) rest
  exact bind_eq_ok.2 ⟨mark, e, opening, list⟩

theorem NarrowsInner.selector (h : NarrowsInner inner inner') (read : selector inner c = .ok n d) :
    selector inner' c = .ok n d := by
  obtain ⟨children, body, rfl⟩ := node_eq_ok.1 read
  obtain ⟨mark, e, opening, rest⟩ := bind_eq_ok.1 body
  obtain ⟨letter, f, listed, rest⟩ := bind_eq_ok.1 rest
  obtain ⟨u, g, given, rest⟩ := bind_eq_ok.1 rest
  have given' : optionalArguments inner' f = .ok u g := by
    rw [optionalArguments] at given ⊢
    split at given
    · rw [if_pos ‹_›]
      exact h.arguments given
    · rw [if_neg ‹_›]
      exact given
  apply node_of_ok
  refine bind_eq_ok.2 ⟨mark, e, opening, bind_eq_ok.2 ⟨letter, f, listed, ?_⟩⟩
  exact bind_eq_ok.2 ⟨u, g, given', rest⟩

/-! ## Selectors that are read as words -/

/-- Whether a word ends before a bracket, and not in a selector without arguments. -/
structure Delimits (stops : Char → Bool) : Prop where
  brace : stops '\x7b'
  bracket : stops '['
  mark : stops '@' = false
  letter (x : Char) (target : selectorClass.has x) : stops x = false

theorem delimits_endsValue : Delimits endsValue where
  brace := rfl
  bracket := rfl
  mark := rfl
  letter := by
    intro x target
    have outside : (',' :: [' ', '\t', '\r', '\n', '\x7b', '\x7d', '[', ']', '=']).all
        (!selectorClass.has ·) := by decide
    by_contra ends
    rw [Bool.not_eq_false, endsValue, endsWord, Bool.or_comm, Bool.or_eq_true, beq_iff_eq,
      List.contains_iff_mem, ← List.mem_cons] at ends
    have other := List.all_eq_true.1 outside x ends
    rw [target] at other
    cases other

theorem delimits_endsWord : Delimits endsWord where
  brace := rfl
  bracket := rfl
  mark := rfl
  letter := by
    intro x target
    have free := delimits_endsValue.letter x target
    rw [endsValue, Bool.or_eq_false_iff] at free
    exact free.1

theorem selector_differs (failed : (selector inner c).Fails) (read : selector inner' c = .ok n d) :
    ∃ letter s, c.rest = '@' :: letter :: '[' :: s ∧ selectorClass.has letter := by
  obtain ⟨children, body, rfl⟩ := node_eq_ok.1 read
  obtain ⟨mark, e, opening, rest⟩ := bind_eq_ok.1 body
  obtain ⟨got, f, target, rest⟩ := bind_eq_ok.1 rest
  obtain ⟨u, g, given, ends⟩ := bind_eq_ok.1 rest
  obtain ⟨letter, second, listed⟩ := rest_of_member target
  by_cases bracket : f.rest.head? = some '['
  · obtain ⟨s, third⟩ := List.head?_eq_some_iff.1 bracket
    exact ⟨letter, s, by rw [rest_of_expect opening, second, third], listed⟩
  · have given' : optionalArguments inner f = .ok u g := by
      rw [optionalArguments, if_neg bracket] at given ⊢
      exact given
    have whole : selector inner c = .ok (.between .selector c d children) d := by
      apply node_of_ok
      refine bind_eq_ok.2 ⟨mark, e, opening, bind_eq_ok.2 ⟨got, f, target, ?_⟩⟩
      exact bind_eq_ok.2 ⟨u, g, given', ends⟩
    obtain ⟨e', f', failed⟩ := failed
    rw [failed] at whole
    cases whole

theorem word_of_selector {stops : Char → Bool} (delimits : Delimits stops) {letter : Char}
    {s : List Char} (split : c.rest = '@' :: letter :: '[' :: s) (target : selectorClass.has letter) :
    ∃ n d, word stops c = .ok n d ∧ d.rest = '[' :: s := by
  have solid : Solid letter := solid_of_class (by decide) letter target
  have chars : wordChars stops c.rest = ['@', letter] := by
    rw [split, wordChars, wordChars, wordChars, starts_of_solid (by decide), starts_of_solid solid,
      delimits.mark, delimits.letter letter target, delimits.bracket]
    rfl
  have noQuote : c.peek.any isQuote = false := by
    rw [Cursor.peek, split]
    rfl
  refine ⟨.between .literal c (c.advance 2) [], c.advance 2, ?_, ?_⟩
  · rw [word, noQuote, chars]
    rfl
  · rw [Cursor.advance, split]
    rfl

/-! ## Items -/

section
variable {stops : Char → Bool}

theorem opens_of_object (read : object inner c = .ok n d) : c.rest.head? = some '\x7b' := by
  obtain ⟨children, body, _⟩ := node_eq_ok.1 read
  obtain ⟨mark, e, opening, _⟩ := bind_eq_ok.1 body
  rw [rest_of_expect opening]
  rfl

theorem opens_of_array (read : array inner c = .ok n d) : c.rest.head? = some '[' := by
  obtain ⟨children, body, _⟩ := node_eq_ok.1 read
  obtain ⟨mark, e, opening, _⟩ := bind_eq_ok.1 body
  rw [rest_of_expect opening]
  rfl

theorem opens_of_string (read : string c = .ok n d) : ∃ x, c.rest.head? = some x ∧ isQuote x := by
  unfold string at read
  split at read
  · cases read
  · rename_i x s split
    split at read
    · exact ⟨x, by rw [split]; rfl, ‹_›⟩
    · cases read

theorem opens_of_word (delimits : Delimits stops) (read : word stops c = .ok n d) :
    ¬c.AtBracket := by
  intro bracket
  have failed : (word stops c).Fails := by
    rcases bracket with head | head
    · exact fails_word_of_head head delimits.brace
    · exact fails_word_of_head head delimits.bracket
  obtain ⟨e, f, failed⟩ := failed
  rw [failed] at read
  cases read

theorem fails_string_of_word (read : word stops c = .ok n d) : (string c).Fails := by
  cases split : c.rest with
  | nil =>
      rw [string, split]
      exact ⟨_, _, rfl⟩
  | cons x s =>
      have head : c.rest.head? = some x := by rw [split]; rfl
      apply fails_string_of_head head
      intro quote
      have failing : (word stops c).Fails := fails_word_of_quote head quote
      obtain ⟨e, f, failed⟩ := failing
      rw [failed] at read
      cases read

theorem fails_of_not_bracket (inner : Deeper) (other : ¬c.AtBracket) :
    ∀ t ∈ [object inner, array inner], (t c).Fails := by
  intro t member
  simp only [List.mem_cons, List.not_mem_nil, or_false] at member
  rcases member with rfl | rfl
  · exact fails_node_of_head fun head => other (.inl head)
  · exact fails_node_of_head fun head => other (.inr head)

theorem item_of_mark (mark : c.rest.head? = some '@') :
    item stops inner c = firstOf [selector inner, word stops] c := by
  apply firstOf_append [object inner, array inner, string]
  intro t member
  simp only [List.mem_cons, List.not_mem_nil, or_false] at member
  rcases member with rfl | rfl | rfl
  · exact fails_node_of_head (head_ne mark (by decide))
  · exact fails_node_of_head (head_ne mark (by decide))
  · exact fails_string_of_head mark (by decide)

theorem NarrowsInner.item_of_ok (h : NarrowsInner inner inner') (delimits : Delimits stops)
    (other : c.rest.head? ≠ some '@') (read : item stops inner c = .ok n d) :
    item stops inner' c = .ok n d := by
  obtain ⟨t, member, first⟩ := exists_of_firstOf read
  simp only [List.mem_cons, List.not_mem_nil, or_false] at member
  rcases member with rfl | rfl | rfl | rfl | rfl
  · exact firstOf_of_ok (h.object first)
  · have noObject : (Token.object inner' c).Fails :=
      fails_node_of_head (head_ne (opens_of_array first) (by decide))
    exact (firstOf_of_fails noObject).trans (firstOf_of_ok (h.array first))
  · obtain ⟨x, head, quote⟩ := opens_of_string first
    have noBracket : ¬c.AtBracket := by
      rintro (brace | bracket)
      · rw [head] at brace
        cases brace
        cases quote
      · rw [head] at bracket
        cases bracket
        cases quote
    exact (firstOf_append _ (fails_of_not_bracket inner' noBracket)).trans (firstOf_of_ok first)
  · obtain ⟨children, body, _⟩ := node_eq_ok.1 first
    obtain ⟨mark, e, opening, _⟩ := bind_eq_ok.1 body
    exact absurd (by rw [rest_of_expect opening]; rfl) other
  · have noBracket := opens_of_word delimits first
    have noSelector : (Token.selector inner' c).Fails := fails_node_of_head other
    refine (firstOf_append _ (fails_of_not_bracket inner' noBracket)).trans ?_
    rw [firstOf_of_fails (fails_string_of_word first), firstOf_of_fails noSelector,
      firstOf_of_ok first]

theorem fails_of_firstOf {scanners : List (Scan α)} (failed : (firstOf scanners c).Fails) :
    ∀ t ∈ scanners, (t c).Fails := by
  induction scanners with
  | nil => simp
  | cons t rest ih =>
      intro u member
      cases first : t c with
      | ok a d =>
          obtain ⟨e, f, failed⟩ := failed
          rw [firstOf_of_ok first] at failed
          cases failed
      | fail e d =>
          rw [firstOf_of_fails ⟨e, d, first⟩] at failed
          cases member with
          | head => exact ⟨e, d, first⟩
          | tail _ later => exact ih failed u later

/-- A token is read alike, or a level that is missing leaves a bracket ahead. -/
theorem NarrowsInner.item (h : NarrowsInner inner inner') (delimits : Delimits stops) :
    Narrows (item stops inner) (item stops inner') where
  ok := by
    intro c n d read
    by_cases mark : c.rest.head? = some '@'
    · rw [item_of_mark mark] at read ⊢
      cases first : Token.selector inner c with
      | ok m e =>
          rw [firstOf_of_ok first] at read
          cases read
          exact .inl (firstOf_of_ok (h.selector first))
      | fail e f =>
          rw [firstOf_of_fails ⟨e, f, first⟩] at read
          cases second : Token.selector inner' c with
          | fail e' f' =>
              rw [firstOf_of_fails ⟨e', f', second⟩]
              exact .inl read
          | ok m e' =>
              obtain ⟨letter, s, split, target⟩ := selector_differs ⟨e, f, first⟩ second
              obtain ⟨m', d', taken, rest⟩ := word_of_selector delimits split target
              rw [firstOf_of_ok taken] at read
              cases read
              exact .inr (.inr (by rw [rest]; rfl))
    · exact .inl (h.item_of_ok delimits mark read)
  fails := by
    intro c failed
    by_cases bracket : c.AtBracket
    · exact .inr bracket
    · have each := fails_of_firstOf failed
      apply Or.inl
      apply fails_firstOf
      intro t member
      simp only [List.mem_cons, List.not_mem_nil, or_false] at member each
      rcases member with rfl | rfl | rfl | rfl | rfl
      · exact fails_of_not_bracket inner' bracket _ (by simp)
      · exact fails_of_not_bracket inner' bracket _ (by simp)
      · exact each _ (by simp)
      · cases second : Token.selector inner' c with
        | fail e f => exact ⟨e, f, rfl⟩
        | ok m e =>
            have failed : (Token.selector inner c).Fails := each _ (by simp)
            obtain ⟨letter, s, split, target⟩ := selector_differs failed second
            obtain ⟨m', d', taken, _⟩ := word_of_selector delimits split target
            obtain ⟨e, f, failed⟩ := each (word stops) (by simp)
            rw [failed] at taken
            cases taken
      · exact each _ (by simp)

end

theorem narrowsInner_inside {limit limit' : Int} {levels levels' : Nat} (le : levels ≤ levels') :
    NarrowsInner (inside limit levels) (inside limit' levels') := by
  induction levels generalizing levels' with
  | zero => rintro v ⟨⟩
  | succ levels ih =>
      obtain ⟨more, rfl⟩ := Nat.exists_eq_add_of_le' le
      intro v left
      cases left
      refine ⟨value limit' (more + levels), rfl, ?_⟩
      rw [value_eq, value_eq]
      exact (ih (Nat.le_add_left levels more)).item delimits_endsValue

end
end
end ChatPreview
