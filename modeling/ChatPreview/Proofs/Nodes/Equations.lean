import ChatPreview.Proofs.Nesting.Token

namespace ChatPreview
open Text Scan Token

variable {α β : Type} {inner : Deeper} {v : Scan Node} {stops : Char → Bool}
  {c d : Cursor} {n : Node}

theorem expect_eq_ok {x : Char} {got : List Char} :
    expect [x] c = .ok got d ↔ c.rest.head? = some x ∧ got = [x] ∧ d = c.advance 1 := by
  by_cases head : c.rest.head? = some x
  · rw [expect_of_head head]
    constructor
    · intro read
      cases read
      exact ⟨head, rfl, rfl⟩
    · rintro ⟨_, rfl, rfl⟩
      rfl
  · rcases fails_expect head with ⟨e, d', failed⟩
    rw [failed]
    constructor
    · intro read
      cases read
    · intro read
      exact absurd read.1 head

theorem space_bind {f : Unit → Scan α} : (space >>= f) c = f () (skipSpace c) := rfl

/-! ## Words and strings -/

theorem word_eq_ok : word stops c = .ok n d ↔ c.peek.any isQuote = false ∧
    wordChars stops c.rest ≠ [] ∧ d = c.advance (wordChars stops c.rest).length ∧
    n = .between .literal c d [] := by
  unfold word
  by_cases quote : c.peek.any isQuote
  · simp [quote]
  · by_cases empty : wordChars stops c.rest = []
    · simp [quote, empty]
    · simp only [quote, Bool.false_eq_true, if_false, List.isEmpty_iff, empty, Outcome.ok.injEq]
      constructor
      · rintro ⟨rfl, rfl⟩
        exact ⟨trivial, empty, rfl, rfl⟩
      · rintro ⟨_, _, rfl, rfl⟩
        exact ⟨rfl, rfl⟩

def run (k : CharClass) : Scan Node := node .literal (atLeast 1 k >>= fun _ => pure [])

theorem run_eq_ok {k : CharClass} : run k c = .ok n d ↔ c.rest.takeWhile k.has ≠ [] ∧
    d = c.skipWhile k.has ∧ n = .between .literal c d [] := by
  have outcome : (atLeast 1 k >>= fun _ => pure ([] : List Node)) c =
      if c.rest.takeWhile k.has = [] then .fail ⟨.tooFew 1 k.written 0, c.pos⟩ c
      else .ok [] (c.skipWhile k.has) := by
    rw [bind_apply, atLeast]
    by_cases empty : c.rest.takeWhile k.has = []
    · simp [empty]
    · have some' := List.length_pos_iff.2 empty
      have few : ¬(c.rest.takeWhile k.has).length < 1 := by omega
      simp only [few, if_false, empty]
      rfl
  rw [run, node_eq_ok, outcome]
  by_cases empty : c.rest.takeWhile k.has = []
  · simp [empty]
  · simp only [empty, if_false, Outcome.ok.injEq]
    constructor
    · rintro ⟨children, ⟨rfl, rfl⟩, rfl⟩
      exact ⟨empty, rfl, rfl⟩
    · rintro ⟨_, rfl, rfl⟩
      exact ⟨[], ⟨rfl, rfl⟩, rfl⟩

theorem string_eq_ok : string c = .ok n d ↔ ∃ quote s, c.rest = quote :: s ∧ isQuote quote ∧
    afterString? quote s = some d.rest ∧ c.Reaches d ∧ n = .between .string c d [] := by
  constructor
  · intro read
    have ahead := (consumes_string read).1
    unfold string at read
    split at read
    · cases read
    · rename_i quote s split
      split at read
      · rename_i opens
        split at read
        · rename_i closed
          cases read
          exact ⟨quote, s, split, opens, closed, ahead, rfl⟩
        · cases read
      · cases read
  · rintro ⟨quote, s, split, opens, closed, ahead, rfl⟩
    exact string_of_closed split opens closed ahead

/-! ## Lists -/

theorem separated_cases {item : Scan α} {as : List α} (read : separated item comma c = .ok as d) :
    (as = [] ∧ d = c ∧ (c.atEnd ∨ (item c).Fails)) ∨
      ∃ a as' e, item c = .ok a e ∧ as = a :: as' ∧
        ((as' = [] ∧ d = e ∧ (comma e).Fails) ∨ e.rest.head? = some ',') := by
  rw [separated] at read
  split at read
  · cases read
    exact .inl ⟨rfl, rfl, .inl ‹_›⟩
  · split at read
    · rename_i failed
      cases read
      exact .inl ⟨rfl, rfl, .inr ⟨_, _, failed⟩⟩
    · rename_i a e first
      split at read
      · rename_i failed
        cases read
        exact .inr ⟨a, [], _, first, rfl, .inl ⟨rfl, rfl, _, _, failed⟩⟩
      · rename_i apart
        have head := (expect_eq_ok.1 apart).1
        split at read
        · split at read
          · cases read
            exact .inr ⟨a, _, e, first, rfl, .inr head⟩
          · cases read
        · cases read
          exact .inr ⟨a, [], e, first, rfl, .inr head⟩

def bracketed (opening close : Char) (inner : Deeper) (part : Scan Node → Scan α)
    (g : List α → β) : Scan β := do
  let _ ← expect [opening]
  let as ← nested inner fun value => separated (part value) comma
  space
  let _ ← expect [close]
  return g as

theorem nested_eq_ok {body : Scan Node → Scan α} {a : α} :
    nested inner body c = .ok a d ↔ ∃ v ∈ inner, body v c = .ok a d := by
  cases inner with
  | error limit =>
      constructor
      · intro read
        cases read
      · rintro ⟨v, left, _⟩
        cases left
  | ok v => simp [nested]

theorem nested_separated {part : Scan Node → Scan α} {as : List α} (left : v ∈ inner)
    (list : separated (part v) comma c = .ok as d) :
    nested inner (fun v => separated (part v) comma) c = .ok as d :=
  nested_eq_ok.2 ⟨v, left, list⟩

theorem bracketed_eq_ok {opening close : Char} {part : Scan Node → Scan α} {g : List α → β}
    {b : β} : bracketed opening close inner part g c = .ok b d ↔
      ∃ v ∈ inner, ∃ as e, c.rest.head? = some opening ∧
        separated (part v) comma (c.advance 1) = .ok as e ∧
        (skipSpace e).rest.head? = some close ∧ d = (skipSpace e).advance 1 ∧ b = g as := by
  rw [bracketed]
  constructor
  · intro read
    rcases bind_eq_ok.1 read with ⟨_, _, opened, read⟩
    rcases expect_eq_ok.1 opened with ⟨head, _, rfl⟩
    rcases bind_eq_ok.1 read with ⟨as, e, list, read⟩
    rcases nested_eq_ok.1 list with ⟨v, left, list⟩
    rw [space_bind] at read
    rcases bind_eq_ok.1 read with ⟨_, _, closed, ended⟩
    rcases expect_eq_ok.1 closed with ⟨last, _, rfl⟩
    cases ended
    exact ⟨v, left, as, e, head, list, last, rfl, rfl⟩
  · rintro ⟨v, left, as, e, head, list, last, rfl, rfl⟩
    refine bind_eq_ok.2 ⟨_, _, expect_of_head head, ?_⟩
    refine bind_eq_ok.2 ⟨as, e, nested_separated left list, ?_⟩
    exact bind_eq_ok.2 ⟨(), skipSpace e, rfl, bind_eq_ok.2 ⟨_, _, expect_of_head last, rfl⟩⟩

theorem node_bracketed_eq_ok {kind : Kind} {opening close : Char} {part : Scan Node → Scan α}
    {g : List α → List Node} : node kind (bracketed opening close inner part g) c = .ok n d ↔
      ∃ v ∈ inner, ∃ as e, c.rest.head? = some opening ∧
        separated (part v) comma (c.advance 1) = .ok as e ∧
        (skipSpace e).rest.head? = some close ∧ d = (skipSpace e).advance 1 ∧
        n = .between kind c d (g as) := by
  rw [node_eq_ok]
  constructor
  · rintro ⟨children, read, rfl⟩
    rcases bracketed_eq_ok.1 read with ⟨v, left, as, e, head, list, last, rfl, rfl⟩
    exact ⟨v, left, as, e, head, list, last, rfl, rfl⟩
  · rintro ⟨v, left, as, e, head, list, last, rfl, rfl⟩
    exact ⟨_, bracketed_eq_ok.2 ⟨v, left, as, e, head, list, last, rfl, rfl⟩, rfl⟩

theorem object_eq_ok : object inner c = .ok n d ↔ ∃ v ∈ inner, ∃ entries e,
    c.rest.head? = some '\x7b' ∧ separated (entry v) comma (c.advance 1) = .ok entries e ∧
    (skipSpace e).rest.head? = some '\x7d' ∧ d = (skipSpace e).advance 1 ∧
    n = .between .object c d entries.flatten := by
  change node .object (bracketed '\x7b' '\x7d' inner entry List.flatten) c = _ ↔ _
  exact node_bracketed_eq_ok

theorem array_eq_ok : array inner c = .ok n d ↔ ∃ v ∈ inner, ∃ items e,
    c.rest.head? = some '[' ∧ separated (element v) comma (c.advance 1) = .ok items e ∧
    (skipSpace e).rest.head? = some ']' ∧ d = (skipSpace e).advance 1 ∧
    n = .between .array c d items := by
  change node .array (bracketed '[' ']' inner element id) c = _ ↔ _
  exact node_bracketed_eq_ok

theorem arguments_eq_ok {u : Unit} : arguments inner c = .ok u d ↔ ∃ v ∈ inner, ∃ us e,
    c.rest.head? = some '[' ∧
    separated (argument v) comma (skipSpace (c.advance 1)) = .ok us e ∧
    (skipSpace e).rest.head? = some ']' ∧ d = (skipSpace e).advance 1 := by
  rw [arguments]
  constructor
  · intro read
    rcases bind_eq_ok.1 read with ⟨_, _, opened, read⟩
    rcases expect_eq_ok.1 opened with ⟨head, _, rfl⟩
    rw [space_bind] at read
    rcases bind_eq_ok.1 read with ⟨us, e, list, read⟩
    rcases nested_eq_ok.1 list with ⟨v, left, list⟩
    rw [space_bind] at read
    rcases bind_eq_ok.1 read with ⟨_, _, closed, ended⟩
    rcases expect_eq_ok.1 closed with ⟨last, _, rfl⟩
    cases ended
    exact ⟨v, left, us, e, head, list, last, rfl⟩
  · rintro ⟨v, left, us, e, head, list, last, rfl⟩
    refine bind_eq_ok.2 ⟨_, _, expect_of_head head, ?_⟩
    refine bind_eq_ok.2 ⟨(), skipSpace (c.advance 1), rfl, ?_⟩
    refine bind_eq_ok.2 ⟨us, e, nested_separated left list, ?_⟩
    exact bind_eq_ok.2 ⟨(), skipSpace e, rfl, bind_eq_ok.2 ⟨_, _, expect_of_head last, rfl⟩⟩

/-! ## Parts of lists -/

theorem element_eq_ok :
    element v c = .ok n d ↔ ∃ e, v (skipSpace c) = .ok n e ∧ d = skipSpace e := by
  rw [element, space_bind]
  constructor
  · intro read
    rcases bind_eq_ok.1 read with ⟨m, e, first, ended⟩
    cases ended
    exact ⟨e, first, rfl⟩
  · rintro ⟨e, first, rfl⟩
    rw [bind_of_ok first]
    rfl

theorem attempt_eq_ok {s : Scan α} {r : Option α} : attempt s c = .ok r d ↔
    (∃ a, s c = .ok a d ∧ r = some a) ∨ (s c).Fails ∧ r = none ∧ d = c := by
  unfold attempt
  cases read : s c with
  | ok a e =>
      constructor
      · intro same
        cases same
        exact .inl ⟨a, rfl, rfl⟩
      · rintro (⟨a, same, rfl⟩ | ⟨⟨e, f, same⟩, _⟩)
        · cases same
          rfl
        · cases same
  | fail e f =>
      constructor
      · intro same
        cases same
        exact .inr ⟨⟨e, f, rfl⟩, rfl, rfl⟩
      · rintro (⟨a, same, _⟩ | ⟨_, rfl, rfl⟩)
        · cases same
        · rfl

theorem argument_eq_ok {u : Unit} : argument v c = .ok u d ↔ ∃ m e r f,
    word endsValue (skipSpace c) = .ok m e ∧ (skipSpace e).rest.head? = some '=' ∧
    attempt v (skipSpace ((skipSpace e).advance 1)) = .ok r f ∧ d = skipSpace f := by
  rw [argument, space_bind]
  constructor
  · intro read
    rcases bind_eq_ok.1 read with ⟨m, e, name, read⟩
    rw [space_bind] at read
    rcases bind_eq_ok.1 read with ⟨_, _, equals, read⟩
    rcases expect_eq_ok.1 equals with ⟨head, _, rfl⟩
    rw [space_bind] at read
    rcases bind_eq_ok.1 read with ⟨r, f, tried, ended⟩
    cases ended
    exact ⟨m, e, r, f, name, head, tried, rfl⟩
  · rintro ⟨m, e, r, f, name, head, tried, rfl⟩
    rw [bind_of_ok name, space_bind, bind_of_ok (expect_of_head head), space_bind, bind_of_ok tried]
    rfl

theorem entry_eq_ok {ns : List Node} : entry v c = .ok ns d ↔ ∃ key e m f,
    firstOf [pathKey, plainKey] (skipSpace c) = .ok key e ∧ v (skipSpace e) = .ok m f ∧
    d = skipSpace f ∧ ns = [key, m] := by
  rw [entry, space_bind]
  constructor
  · intro read
    rcases bind_eq_ok.1 read with ⟨key, e, name, read⟩
    rw [space_bind] at read
    rcases bind_eq_ok.1 read with ⟨m, f, value, ended⟩
    cases ended
    exact ⟨key, e, m, f, name, value, rfl, rfl⟩
  · rintro ⟨key, e, m, f, name, value, rfl, rfl⟩
    rw [bind_of_ok name, space_bind, bind_of_ok value]
    rfl

theorem firstOf_pair {s t : Scan α} {a : α} (read : firstOf [s, t] c = .ok a d) :
    s c = .ok a d ∨ t c = .ok a d := by
  rcases exists_of_firstOf read with ⟨u, member, first⟩
  simp only [List.mem_cons, List.not_mem_nil, or_false] at member
  rcases member with rfl | rfl
  · exact .inl first
  · exact .inr first

theorem pathKey_eq_ok : pathKey c = .ok n d ↔ ∃ e, run pathClass c = .ok n e ∧
    (skipSpace e).rest.head? = some '=' ∧ d = (skipSpace e).advance 1 := by
  change (run pathClass >>= fun key => space >>= fun _ => expect ['='] >>= fun _ => pure key) c = _ ↔ _
  constructor
  · intro read
    rcases bind_eq_ok.1 read with ⟨key, e, name, read⟩
    rw [space_bind] at read
    rcases bind_eq_ok.1 read with ⟨_, _, equals, ended⟩
    rcases expect_eq_ok.1 equals with ⟨head, _, rfl⟩
    cases ended
    exact ⟨e, name, head, rfl⟩
  · rintro ⟨e, name, head, rfl⟩
    rw [bind_of_ok name, space_bind, bind_of_ok (expect_of_head head)]
    rfl

def IsMark (x : Char) : Prop := x = ':' ∨ x = '='

theorem IsMark.solid {x : Char} (mark : IsMark x) : Solid x := by
  rcases mark with rfl | rfl <;> decide

theorem mark_eq_ok {got : List Char} : oneOf [[':'], ['=']] c = .ok got d ↔
    ∃ mark, IsMark mark ∧ c.rest.head? = some mark ∧ got = [mark] ∧ d = c.advance 1 := by
  rw [oneOf]
  cases split : c.rest with
  | nil => simp
  | cons x s =>
      by_cases colon : x = ':'
      · subst colon
        simp [List.find?, List.isPrefixOf, IsMark, eq_comm]
      · by_cases equals : x = '='
        · subst equals
          simp [List.find?, List.isPrefixOf, IsMark, eq_comm]
        · have other (y : Char) (different : x ≠ y) : ([y].isPrefixOf (x :: s)) = false := by
            simp [List.isPrefixOf, Ne.symm different]
          simp [List.find?, IsMark, other ':' colon, other '=' equals, colon, equals]

theorem plainKey_eq_ok : plainKey c = .ok n d ↔ ∃ e, firstOf [run keyClass, string] c = .ok n e ∧
    ∃ mark, IsMark mark ∧ (skipSpace e).rest.head? = some mark ∧ d = (skipSpace e).advance 1 := by
  change (firstOf [run keyClass, string] >>= fun key => space >>= fun _ =>
    oneOf [[':'], ['=']] >>= fun _ => pure key) c = _ ↔ _
  constructor
  · intro read
    rcases bind_eq_ok.1 read with ⟨key, e, name, read⟩
    rw [space_bind] at read
    rcases bind_eq_ok.1 read with ⟨_, _, marked, ended⟩
    rcases mark_eq_ok.1 marked with ⟨mark, marks, head, _, rfl⟩
    cases ended
    exact ⟨e, name, mark, marks, head, rfl⟩
  · rintro ⟨e, name, mark, marks, head, rfl⟩
    rw [bind_of_ok name, space_bind, bind_of_ok (mark_eq_ok.2 ⟨mark, marks, head, rfl, rfl⟩)]
    rfl

/-! ## Selectors -/

theorem selector_eq_ok : selector inner c = .ok n d ↔ ∃ letter s,
    c.rest = '@' :: letter :: s ∧ selectorClass.has letter ∧
    optionalArguments inner (c.advance 2) = .ok () d ∧ selectorEnds d.rest ∧
    n = .between .selector c d [] := by
  rw [selector, node_eq_ok]
  constructor
  · rintro ⟨children, read, rfl⟩
    rcases bind_eq_ok.1 read with ⟨_, _, opened, read⟩
    rcases bind_eq_ok.1 read with ⟨_, e, target, read⟩
    rcases bind_eq_ok.1 read with ⟨_, f, given, ended⟩
    rcases expect_eq_ok.1 opened with ⟨head, _, rfl⟩
    rcases List.head?_eq_some_iff.1 head with ⟨t, split⟩
    rcases rest_of_member target with ⟨letter, second, listed⟩
    have next : (c.advance 1).rest = t := by rw [Cursor.advance, split]; rfl
    rw [next] at second
    have there : e = c.advance 2 := by
      rw [member, next, second] at target
      simp only [listed, if_true] at target
      cases target
      rw [Cursor.advance_advance]
    rw [selectorEnd] at ended
    split at ended
    · cases ended
      exact ⟨letter, e.rest, by rw [split, second], listed, there ▸ given, ‹_›, rfl⟩
    · cases ended
  · rintro ⟨letter, s, split, listed, given, ends, rfl⟩
    have target : member selectorClass (c.advance 1) = .ok [letter] (c.advance 2) := by
      have next : (c.advance 1).rest = letter :: s := by rw [Cursor.advance, split]; rfl
      rw [member, next]
      simp only [listed, if_true]
      rw [Cursor.advance_advance]
    have opened : expect ['@'] c = .ok ['@'] (c.advance 1) := expect_of_head (by rw [split]; rfl)
    refine ⟨[], ?_, rfl⟩
    rw [bind_of_ok opened, bind_of_ok target, bind_of_ok given, selectorEnd, if_pos ends]

theorem optionalArguments_eq_ok {u : Unit} : optionalArguments inner c = .ok u d ↔
    (c.rest.head? = some '[' ∧ arguments inner c = .ok u d) ∨ (c.rest.head? ≠ some '[' ∧ d = c) := by
  rw [optionalArguments]
  by_cases head : c.rest.head? = some '['
  · simp [head]
  · simp [head, eq_comm]

/-! ## Items -/

theorem item_cases (read : item stops inner c = .ok n d) :
    object inner c = .ok n d ∨ array inner c = .ok n d ∨ string c = .ok n d ∨
      selector inner c = .ok n d ∨ word stops c = .ok n d := by
  rcases exists_of_firstOf read with ⟨s, member, first⟩
  simp only [List.mem_cons, List.not_mem_nil, or_false] at member
  rcases member with rfl | rfl | rfl | rfl | rfl
  · exact .inl first
  · exact .inr (.inl first)
  · exact .inr (.inr (.inl first))
  · exact .inr (.inr (.inr (.inl first)))
  · exact .inr (.inr (.inr (.inr first)))

end ChatPreview
