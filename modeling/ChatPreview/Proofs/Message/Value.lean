import ChatPreview.Proofs.Message.Rounds
import ChatPreview.Proofs.Alignment.LineEnd
/-!
A value of a message as a token of a command: where it is read at all, it is read up to its end.
-/
namespace ChatPreview
open Text Scan Token
open Json (ItemPart MemberPart Rounds Bracketed Extent inAtom Sound)

def Outcome.EndsAt {α : Type} (o : Outcome α) (d : Cursor) : Prop := (∃ a, o = .ok a d) ∨ o.Fails

def Reads (kind : Kind) (s : Scan Node) (c d : Cursor) : Prop :=
  (∃ children, s c = .ok (.between kind c d children) d) ∨ (s c).Fails

def Follows (d : Cursor) : Prop := d.rest.head?.all endsValue

section
variable {α β : Type} {s : Scan α} {f : α → Scan β} {a : α} {c d e : Cursor}

theorem endsAt_bind_of_ok (read : s c = .ok a e) (next : (f a e).EndsAt d) :
    ((s >>= f) c).EndsAt d := by
  rwa [bind_of_ok read]

theorem endsAt_bind (first : (s c).EndsAt e) (next : ∀ a, (f a e).EndsAt d) :
    ((s >>= f) c).EndsAt d := by
  rcases first with ⟨a, read⟩ | failed
  · exact endsAt_bind_of_ok read (next a)
  · exact .inr (fails_bind failed)

theorem endsAt_pure : ((pure a : Scan α) c).EndsAt c := .inl ⟨a, rfl⟩

theorem reads_node {kind : Kind} {s : Scan (List Node)} (first : (s c).EndsAt d) :
    Reads kind (node kind s) c d := by
  rcases first with ⟨children, read⟩ | failed
  · exact .inl ⟨children, node_of_ok read⟩
  · exact .inr (fails_node failed)

theorem Reads.endsAt {kind : Kind} {s : Scan Node} (reads : Reads kind s c d) :
    (s c).EndsAt d := by
  rcases reads with ⟨children, read⟩ | failed
  · exact .inl ⟨_, read⟩
  · exact .inr failed

theorem expect_of_head {x : Char} (head : c.rest.head? = some x) :
    expect [x] c = .ok [x] (c.advance 1) := by
  rcases List.head?_eq_some_iff.1 head with ⟨t, split⟩
  rw [expect, split]
  simp

theorem top_of_ok {limit : Int} {n : Node}
    (read : item endsWord (inside limit limit.toNat) c = .ok n d) : top limit c = .ok n d := by
  rw [top, read]

theorem fails_node_of_head {kind : Kind} {x : Char} {f : List Char → Scan (List Node)}
    (other : c.rest.head? ≠ some x) : (node kind (expect [x] >>= f) c).Fails :=
  fails_node (fails_bind (fails_expect other))

theorem fails_string_of_head {x : Char} (head : c.rest.head? = some x) (other : ¬isQuote x) :
    (string c).Fails := by
  rcases List.head?_eq_some_iff.1 head with ⟨t, split⟩
  rw [string, split]
  simp only [other, Bool.false_eq_true, if_false]
  exact ⟨_, _, rfl⟩

theorem string_of_closed {quote : Char} {t : List Char} (split : c.rest = quote :: t)
    (opens : isQuote quote) (closed : afterString? quote t = some d.rest) (ahead : c.Reaches d) :
    string c = .ok (.between .string c d []) d := by
  have part : d.rest <:+ c.rest := split ▸ (afterString?_suffix closed).trans (List.suffix_cons _ _)
  have last : c.leave d.rest = d := (c.reaches_leave part).eq_of_rest_eq ahead rfl
  rw [string, split]
  simp only [opens, if_true, closed, last]

theorem fails_word_of_head {x : Char} {stops : Char → Bool} (head : c.rest.head? = some x)
    (ends : stops x) : (word stops c).Fails := by
  rcases List.head?_eq_some_iff.1 head with ⟨t, split⟩
  rw [word]
  split
  · exact ⟨_, _, rfl⟩
  · rw [split, wordChars, ends, Bool.true_or]
    exact ⟨_, _, rfl⟩

theorem fails_run_of_head {x : Char} {k : CharClass} (head : c.rest.head? = some x)
    (other : ¬k.has x) : (node .literal (atLeast 1 k >>= fun _ => pure []) c).Fails := by
  rcases List.head?_eq_some_iff.1 head with ⟨t, split⟩
  have none : c.rest.takeWhile k.has = [] := by rw [split, List.takeWhile_cons_of_neg other]
  apply fails_node
  apply fails_bind
  rw [atLeast]
  simp only [none, List.length_nil, Nat.zero_lt_one, if_true]
  exact ⟨_, _, rfl⟩

end

/-! ## Lists -/

/-- A scanner of the parts of a list: it fails where the list is closed, and else comes to the end
of the part, if it reads it. -/
structure Covers {α : Type} (part : Cursor → Cursor → Prop) (close : Char) (scan : Scan α) :
    Prop where
  forward : Forward scan
  opens {c d : Cursor} : Plain c.rest → part c d → c.rest.head? ≠ some close
  ends {c d : Cursor} : Plain c.rest → part (Json.skipSpace c) d →
    d.rest.head? = some close ∨ d.rest.head? = some ',' → (scan c).EndsAt d
  stuck {c : Cursor} : Plain c.rest → (Json.skipSpace c).rest.head? = some close → (scan c).Fails

namespace Covers
variable {α : Type} {part : Cursor → Cursor → Prop} {close : Char} {scan : Scan α} {c d : Cursor}

theorem separated_stopped (h : Covers part close scan) (plain : Plain c.rest)
    (first : part (Json.skipSpace c) d) (stopped : c.atEnd ∨ (scan c).Fails) :
    ∃ as e, separated scan comma c = .ok as e ∧ c.Reaches e ∧
      (Json.skipSpace e).rest.head? ≠ some close := by
  have ahead := reaches_json_skipSpace c
  refine ⟨[], c, ?_, .refl c, h.opens (plain.of_reaches ahead) first⟩
  rcases stopped with ended | failed
  · exact separated_of_atEnd ended
  · exact separated_of_fails failed

theorem separated_rounds (h : Covers part close scan) (apart : close ≠ ',')
    (plain : Plain c.rest) (rounds : Rounds part close (Json.skipSpace c) d) :
    ∃ as e, separated scan comma c = .ok as e ∧ c.Reaches e ∧
      (e = d ∨ (Json.skipSpace e).rest.head? ≠ some close) := by
  generalize start : Json.skipSpace c = c₀ at rounds
  induction rounds generalizing c with
  | last first closed =>
      rename_i c₀ d
      by_cases stopped : c.atEnd ∨ (scan c).Fails
      · rcases h.separated_stopped plain (start ▸ first) stopped with ⟨as, e, list, ahead, open'⟩
        exact ⟨as, e, list, ahead, .inr open'⟩
      · rcases h.ends plain (start ▸ first) (.inl closed) with ⟨a, read⟩ | failed
        · have other : d.rest.head? ≠ some ',' := by
            rw [closed]
            exact fun same => apart (Option.some.inj same)
          rcases fails_expect other with ⟨f, d', noComma⟩
          exact ⟨[a], d, separated_of_last (fun ended => stopped (.inl ended)) read noComma,
            h.forward read, .inl rfl⟩
        · exact absurd (.inr failed) stopped
  | more first comma' rest ih =>
      rename_i c₀ d d'
      by_cases stopped : c.atEnd ∨ (scan c).Fails
      · rcases h.separated_stopped plain (start ▸ first) stopped with ⟨as, e, list, ahead, open'⟩
        exact ⟨as, e, list, ahead, .inr open'⟩
      · rcases h.ends plain (start ▸ first) (.inr comma') with ⟨a, read⟩ | failed
        · have onward := Json.reaches_head comma'
          have ahead := (h.forward read).trans onward
          have shorter : (d.advance 1).rest.length < c.rest.length := by
            have total := ahead.length_add
            have low := (h.forward read).pos_le
            simp only [Cursor.advance] at total ⊢
            omega
          rcases ih (plain.of_reaches ahead) rfl with ⟨as, e, list, further, last⟩
          exact ⟨a :: as, e, separated_of_more (fun ended => stopped (.inl ended)) read
            (expect_of_head comma') shorter list, ahead.trans further, last⟩
        · exact absurd (.inr failed) stopped

theorem bracketed (h : Covers part close scan) (apart : close ≠ ',') {opening : Char}
    (ink : Json.isSpace close = false) (plain : Plain c.rest)
    (list : Bracketed part opening close c d) (g : List α → List Node) :
    ((expect [opening] >>= fun _ => separated scan comma >>= fun as => space >>= fun _ =>
      expect [close] >>= fun _ => pure (g as)) c).EndsAt d := by
  rcases list with ⟨opens, e, rfl, closed, rounds⟩
  have inside := Json.reaches_head opens
  have plain' := plain.of_reaches inside
  have closes {f : Cursor} (arrived : Json.skipSpace f = e) (ahead : (c.advance 1).Reaches f)
      (as : List α) : ((space >>= fun _ => expect [close] >>= fun _ => pure (g as)) f).EndsAt
        (e.advance 1) := by
    have moved : space f = .ok () e := by
      rw [space, skipSpace_eq_json (plain'.of_reaches ahead), arrived]
    exact endsAt_bind_of_ok moved (endsAt_bind_of_ok (expect_of_head closed) endsAt_pure)
  apply endsAt_bind_of_ok (expect_of_head opens)
  rcases rounds with rfl | rounds
  · have none : separated scan comma (c.advance 1) = .ok [] (c.advance 1) :=
      separated_of_fails (h.stuck plain' closed)
    exact endsAt_bind_of_ok none (closes rfl (.refl _) [])
  · rcases h.separated_rounds apart plain' rounds with ⟨as, f, read, ahead, rfl | other⟩
    · rcases List.head?_eq_some_iff.1 closed with ⟨s, split⟩
      exact endsAt_bind_of_ok read (closes (skipSpace_of_head' split ink) ahead as)
    · apply endsAt_bind_of_ok read
      have moved : space f = .ok () (Json.skipSpace f) := by
        rw [space, skipSpace_eq_json (plain'.of_reaches ahead)]
      exact endsAt_bind_of_ok moved (.inr (fails_bind (fails_expect other)))

end Covers
/-! ## Parts of lists -/

theorem endsValue_of_isSpace {x : Char} (space : Json.isSpace x) : endsValue x := by
  rw [Json.isSpace, List.contains_iff_mem] at space
  simp only [List.mem_cons, List.not_mem_nil, or_false] at space
  rcases space with rfl | rfl | rfl | rfl <;> rfl

theorem follows_of_skipSpace {e : Cursor} {x : Char}
    (head : (Json.skipSpace e).rest.head? = some x) (ends : endsValue x) : Follows e := by
  rw [Follows]
  cases split : e.rest with
  | nil => rfl
  | cons y t =>
      rw [List.head?_cons, Option.all_some]
      by_cases space : Json.isSpace y
      · exact endsValue_of_isSpace space
      · rw [skipSpace_of_head' split (Bool.eq_false_iff.2 space), split] at head
        rwa [Option.some.inj head]

/-- A reader of values in a message and a scanner of values in a command: where the one has read a
value, the other fails or ends where the value ends. -/
structure Matches (item : Cursor → Json.Read Value) (value : Scan Node) : Prop where
  sound : Sound item
  forward : Forward value
  ends {c d : Cursor} {v : Value} : Plain c.rest → item c = .ok (v, d) → Follows d →
    (value c).EndsAt d
  stuck {c : Cursor} : c.rest.head? = some ']' → (value c).Fails

namespace Matches
variable {item : Cursor → Json.Read Value} {value : Scan Node} {c d : Cursor}

theorem space_json (plain : Plain c.rest) : space c = .ok () (Json.skipSpace c) := by
  rw [space, skipSpace_eq_json plain]

theorem element (h : Matches item value) : Covers (ItemPart item) ']' (element value) where
  forward := forward_element h.forward
  opens := by
    rintro c d plain ⟨v, e, read, rfl⟩
    exact (h.sound plain read).2
  ends := by
    rintro c d plain ⟨v, e, read, rfl⟩ closed
    have plain₁ := plain.of_reaches (reaches_json_skipSpace c)
    have plain₂ := plain₁.of_reaches (h.sound plain₁ read).1
    have follows : Follows e := by
      rcases closed with head | head <;> exact follows_of_skipSpace head rfl
    apply endsAt_bind_of_ok (space_json plain)
    apply endsAt_bind (h.ends plain₁ read follows)
    intro n
    exact endsAt_bind_of_ok (space_json plain₂) endsAt_pure
  stuck plain head := fails_bind_of_ok (space_json plain) (fails_bind (h.stuck head))

theorem key_ok {key : Text} (plain : Plain c.rest) (read : Json.readKey c = .ok (key, d)) :
    ∃ n e, firstOf [pathKey, plainKey] c = .ok n e ∧ d = Json.skipSpace e ∧ c.Reaches e := by
  rcases Json.readKey_spec read plain with ⟨s, e, split, closed, ahead, colon, rfl⟩
  have head : c.rest.head? = some '"' := by rw [split]; rfl
  have plain' := plain.of_reaches ahead
  have quoted := string_of_closed split rfl closed ahead
  have noPath : (pathKey c).Fails := fails_bind (fails_run_of_head head (by decide))
  have noWord : (keyWord c).Fails := fails_run_of_head head (by decide)
  have mark : oneOf [[':'], ['=']] (Json.skipSpace e) = .ok [':'] ((Json.skipSpace e).advance 1) := by
    rcases List.head?_eq_some_iff.1 colon with ⟨t, split⟩
    rw [oneOf, split]
    rfl
  refine ⟨.between .string c e [], (Json.skipSpace e).advance 1, ?_, rfl, ?_⟩
  · rw [firstOf_of_fails noPath]
    apply firstOf_of_ok
    have name : firstOf [keyWord, string] c = .ok (.between .string c e []) e := by
      rw [firstOf_of_fails noWord, firstOf_of_ok quoted]
    rw [plainKey, bind_of_ok name, bind_of_ok (space_json plain'), bind_of_ok mark]
    rfl
  · exact (ahead.trans (reaches_json_skipSpace e)).trans (Json.reaches_head colon)

theorem fails_key_of_close (head : c.rest.head? = some '\x7d') :
    (firstOf [pathKey, plainKey] c).Fails := by
  have noWord (k : CharClass) (other : ¬k.has '\x7d') := fails_run_of_head head other
  have noName : (firstOf [keyWord, string] c).Fails := by
    apply fails_firstOf
    intro s member
    simp only [List.mem_cons, List.not_mem_nil, or_false] at member
    rcases member with rfl | rfl
    · exact noWord keyClass (by decide)
    · exact fails_string_of_head head (by decide)
  apply fails_firstOf
  intro s member
  simp only [List.mem_cons, List.not_mem_nil, or_false] at member
  rcases member with rfl | rfl
  · exact fails_bind (noWord pathClass (by decide))
  · exact fails_bind noName

theorem entry (h : Matches item value) : Covers (MemberPart item) '\x7d' (entry value) where
  forward := forward_entry h.forward
  opens := by
    rintro c d plain ⟨key, v, e, f, first, second, rfl⟩
    rcases Json.readKey_spec first plain with ⟨s, e, split, _⟩
    rw [split, List.head?_cons]
    decide
  ends := by
    rintro c d plain ⟨key, v, e, f, first, second, rfl⟩ closed
    have plain₁ := plain.of_reaches (reaches_json_skipSpace c)
    have plain₂ := plain₁.of_reaches (Json.readKey_reaches plain₁ first)
    have plain₃ := plain₂.of_reaches (h.sound plain₂ second).1
    have follows : Follows f := by
      rcases closed with head | head <;> exact follows_of_skipSpace head rfl
    rcases key_ok plain₁ first with ⟨n, e, name, rfl, ahead⟩
    apply endsAt_bind_of_ok (space_json plain)
    apply endsAt_bind_of_ok name
    apply endsAt_bind_of_ok (space_json (plain₁.of_reaches ahead))
    apply endsAt_bind (h.ends plain₂ second follows)
    intro m
    exact endsAt_bind_of_ok (space_json plain₃) endsAt_pure
  stuck plain head := fails_bind_of_ok (space_json plain) (fails_bind (fails_key_of_close head))

end Matches

/-! ## Values -/

section
variable {inner : Deeper} {item' : Cursor → Json.Read Value} {c d : Cursor}

theorem reads_array (values : ∀ value ∈ inner, Matches item' value) (plain : Plain c.rest)
    (list : Bracketed (ItemPart item') '[' ']' c d) : Reads .array (array inner) c d := by
  apply reads_node
  cases inner with
  | error limit => exact .inr (fails_bind_of_ok (expect_of_head list.1) (fails_bind ⟨_, _, rfl⟩))
  | ok value => exact (values value rfl).element.bracketed (by decide) (by decide) plain list id

theorem reads_object (values : ∀ value ∈ inner, Matches item' value) (plain : Plain c.rest)
    (list : Bracketed (MemberPart item') '\x7b' '\x7d' c d) : Reads .object (object inner) c d := by
  apply reads_node
  cases inner with
  | error limit => exact .inr (fails_bind_of_ok (expect_of_head list.1) (fails_bind ⟨_, _, rfl⟩))
  | ok value =>
      exact (values value rfl).entry.bracketed (by decide) (by decide) plain list List.flatten

theorem firstOf_append {α : Type} {s : Scan α} (before : List (Scan α)) {after : List (Scan α)}
    (others : ∀ t ∈ before, (t c).Fails) :
    firstOf (before ++ s :: after) c = firstOf (s :: after) c := by
  induction before with
  | nil => rfl
  | cons t before ih =>
      rw [List.cons_append, firstOf_of_fails (others t List.mem_cons_self)]
      exact ih fun u member => others u (List.mem_cons_of_mem t member)

theorem reads_firstOf {kind : Kind} {s : Scan Node} (before : List (Scan Node))
    {after : List (Scan Node)} (reads : Reads kind s c d) (others : ∀ t ∈ before ++ after, (t c).Fails) :
    Reads kind (firstOf (before ++ s :: after)) c d := by
  rcases reads with ⟨children, read⟩ | failed
  · refine .inl ⟨children, ?_⟩
    rw [firstOf_append before fun t member => others t (List.mem_append_left _ member),
      firstOf_of_ok read]
  · apply Or.inr
    apply fails_firstOf
    intro t member
    rcases List.mem_append.1 member with left | right
    · exact others t (List.mem_append_left _ left)
    · rcases List.mem_cons.1 right with rfl | later
      · exact failed
      · exact others t (List.mem_append_right _ later)

theorem head_ne {x y : Char} (head : c.rest.head? = some x) (other : x ≠ y) :
    c.rest.head? ≠ some y := by
  rw [head]
  exact fun same => other (Option.some.inj same)

theorem fails_word_of_quote {x : Char} {stops : Char → Bool} (head : c.rest.head? = some x)
    (opens : isQuote x) : (word stops c).Fails := by
  rcases List.head?_eq_some_iff.1 head with ⟨t, split⟩
  rw [word, Cursor.peek, split]
  simp only [List.take_succ_cons, List.take_zero, List.any_cons, opens, Bool.true_or, if_true]
  exact ⟨_, _, rfl⟩

theorem reads_item_array {stops : Char → Bool} (ends : stops '[')
    (reads : Reads .array (array inner) c d) (head : c.rest.head? = some '[') :
    Reads .array (item stops inner) c d := by
  apply reads_firstOf [object inner] reads
  intro t member
  simp only [List.cons_append, List.nil_append, List.mem_cons, List.not_mem_nil, or_false] at member
  rcases member with rfl | rfl | rfl | rfl
  · exact fails_node_of_head (head_ne head (by decide))
  · exact fails_string_of_head head (by decide)
  · exact fails_node_of_head (head_ne head (by decide))
  · exact fails_word_of_head head ends

theorem reads_item_object {stops : Char → Bool} (ends : stops '\x7b')
    (reads : Reads .object (object inner) c d) (head : c.rest.head? = some '\x7b') :
    Reads .object (item stops inner) c d := by
  apply reads_firstOf [] reads
  intro t member
  simp only [List.nil_append, List.mem_cons, List.not_mem_nil, or_false] at member
  rcases member with rfl | rfl | rfl | rfl
  · exact fails_node_of_head (head_ne head (by decide))
  · exact fails_string_of_head head (by decide)
  · exact fails_node_of_head (head_ne head (by decide))
  · exact fails_word_of_head head ends

theorem reads_item_string {stops : Char → Bool} (reads : Reads .string string c d)
    (head : c.rest.head? = some '"') : Reads .string (item stops inner) c d := by
  apply reads_firstOf [object inner, array inner] reads
  intro t member
  simp only [List.cons_append, List.nil_append, List.mem_cons, List.not_mem_nil, or_false] at member
  rcases member with rfl | rfl | rfl | rfl
  · exact fails_node_of_head (head_ne head (by decide))
  · exact fails_node_of_head (head_ne head (by decide))
  · exact fails_node_of_head (head_ne head (by decide))
  · exact fails_word_of_quote head rfl

def Bare (stops p : Char → Bool) : Prop :=
  ∀ x, p x → stops x = false ∧ isQuote x = false ∧ x ≠ '@'

theorem bare_inAtom : Bare endsValue inAtom := by
  intro x inside
  refine ⟨?_, ?_, ?_⟩
  · by_contra ends
    rw [Bool.not_eq_false, endsValue, endsWord, Bool.or_eq_true, List.contains_iff_mem,
      beq_iff_eq] at ends
    simp only [List.mem_cons, List.not_mem_nil, or_false] at ends
    rcases ends with (rfl | rfl | rfl | rfl | rfl | rfl | rfl | rfl | rfl) | rfl <;> cases inside
  · by_contra quote
    rw [Bool.not_eq_false, isQuote_iff] at quote
    rcases quote with rfl | rfl <;> cases inside
  · rintro rfl
    cases inside

section
variable {stops p : Char → Bool}

theorem wordChars_append_left {s t : List Char} (free : ∀ x ∈ s, stops x = false ∧ x ≠ '\\')
    (ends : t.head?.all stops) : wordChars stops (s ++ t) = s := by
  induction s with
  | nil =>
      cases t with
      | nil => rfl
      | cons y t =>
          have stop : stops y := by simpa using ends
          rw [List.nil_append, wordChars, stop]
          rfl
  | cons x s ih =>
      obtain ⟨inside, noBackslash⟩ := free x List.mem_cons_self
      have starts : Continuation.starts (x :: (s ++ t)) = false := by
        rw [Continuation.starts, Continuation.rest?.eq_def]
        split
        · rename_i same
          exact absurd (List.cons.inj same).1 noBackslash
        · rfl
      rw [List.cons_append, wordChars, inside, starts,
        ih fun y member => free y (List.mem_cons_of_mem x member)]
      rfl

theorem word_of_run (bare : Bare stops p) (noBackslash : ¬p '\\') (run : Runs p c d)
    (further : c.pos < d.pos) (ends : d.rest.head?.all stops) :
    word stops c = .ok (.between .literal c d []) d := by
  rcases run.head further with ⟨x, s, head, inside⟩
  have noQuote : c.peek.any isQuote = false := by
    rw [Cursor.peek, head]
    simp [(bare x inside).2.1]
  rcases run with ⟨text, split, pos, all⟩
  have chars : wordChars stops c.rest = text := by
    rw [split]
    apply wordChars_append_left _ ends
    intro y member
    have inside := all y member
    refine ⟨(bare y inside).1, ?_⟩
    rintro rfl
    exact noBackslash inside
  have nonempty : text.isEmpty = false := by
    rw [List.isEmpty_eq_false_iff]
    rintro rfl
    rw [List.length_nil] at pos
    omega
  have there : c.advance text.length = d := by
    have moved : (c.advance text.length).rest = d.rest := by
      rw [Cursor.advance, split, List.drop_left]
    have ahead : c.Reaches (c.advance text.length) := c.reaches_advance (by simp [split])
    exact ahead.eq_of_rest_eq ⟨text, split, pos⟩ moved
  rw [word, noQuote, chars]
  simp only [nonempty, Bool.false_eq_true, if_false, there]

theorem item_of_run (bare : Bare stops p) (brace : stops '\x7b') (bracket : stops '[')
    (noBackslash : ¬p '\\') (run : Runs p c d) (further : c.pos < d.pos)
    (ends : d.rest.head?.all stops) :
    item stops inner c = .ok (.between .literal c d []) d := by
  rcases run.head further with ⟨x, s, split, inside⟩
  have head : c.rest.head? = some x := by rw [split]; rfl
  rcases bare x inside with ⟨free, noQuote, noMark⟩
  have other {y : Char} (ends : stops y) : x ≠ y := by
    rintro rfl
    rw [free] at ends
    cases ends
  have others : ∀ t ∈ [object inner, array inner, string, selector inner], (t c).Fails := by
    intro t member
    simp only [List.mem_cons, List.not_mem_nil, or_false] at member
    rcases member with rfl | rfl | rfl | rfl
    · exact fails_node_of_head (head_ne head (other brace))
    · exact fails_node_of_head (head_ne head (other bracket))
    · exact fails_string_of_head head (Bool.eq_false_iff.1 noQuote)
    · exact fails_node_of_head (head_ne head noMark)
  calc
    item stops inner c = firstOf [word stops] c := firstOf_append _ others
    _ = .ok (.between .literal c d []) d :=
      firstOf_of_ok (word_of_run bare noBackslash run further ends)

end
end

/-- A value of a message that is read as one of a command is read up to its end. -/
theorem matches_readOne {inner : Option (Cursor → Json.Read Value)} {inner' : Deeper}
    (sound : ∀ item ∈ inner, Sound item)
    (values : ∀ item ∈ inner, ∀ value ∈ inner', Matches item value)
    (forward : ∀ value ∈ inner', Forward value) :
    Matches (Json.readOne inner) (item endsValue inner') where
  sound := Json.sound_readOne sound
  forward := (consumes_item forward).forward
  ends := by
    intro c d v plain read follows
    cases Json.extent_of_readOne plain read with
    | string opens closes ahead =>
        have quoted := string_of_closed opens rfl closes ahead
        exact (reads_item_string (.inl ⟨[], quoted⟩) (by rw [opens]; rfl)).endsAt
    | array left list =>
        have reads := reads_array (values _ left) plain list
        exact (reads_item_array rfl reads list.1).endsAt
    | object left list =>
        have reads := reads_object (values _ left) plain list
        exact (reads_item_object rfl reads list.1).endsAt
    | atom run further => exact .inl ⟨_, item_of_run bare_inAtom rfl rfl (by decide) run further follows⟩
  stuck := by
    intro c head
    apply fails_firstOf
    intro t member
    simp only [List.mem_cons, List.not_mem_nil, or_false] at member
    rcases member with rfl | rfl | rfl | rfl | rfl
    · exact fails_node_of_head (head_ne head (by decide))
    · exact fails_node_of_head (head_ne head (by decide))
    · exact fails_string_of_head head (by decide)
    · exact fails_node_of_head (head_ne head (by decide))
    · exact fails_word_of_head head rfl

theorem matches_inside {item : Cursor → Json.Read Value}
    {limit : Int} (each : ∀ levels, Matches item (value limit levels)) (levels : Nat) :
    ∀ value ∈ inside limit levels, Matches item value := by
  intro value left
  cases levels with
  | zero => cases left
  | succ levels =>
      cases left
      exact each levels

theorem matches_readValue (depth : Nat) (limit : Int) (levels : Nat) :
    Matches (Json.readValue depth) (value limit levels) := by
  have inner (depth : Nat) : ∀ item ∈ some (Json.readValue depth), Sound item := by
    intro item left
    cases left
    exact Json.sound_readValue depth
  induction depth generalizing levels with
  | zero =>
      rw [value_eq]
      change Matches (Json.readOne none) _
      exact matches_readOne (by simp) (by simp) (forward_inside limit levels)
  | succ depth ih =>
      rw [value_eq]
      apply matches_readOne (inner depth) _ (forward_inside limit levels)
      intro item left
      cases left
      exact matches_inside ih levels

theorem exists_extent {depth : Nat} {c d : Cursor} {v : Value} (plain : Plain c.rest)
    (read : Json.readValue depth c = .ok (v, d)) :
    ∃ inner, Extent inner c d ∧ ∀ item ∈ inner, ∃ depth, item = Json.readValue depth := by
  cases depth with
  | zero => exact ⟨none, Json.extent_of_readOne plain read, by simp⟩
  | succ depth =>
      refine ⟨some (Json.readValue depth), Json.extent_of_readOne plain read, ?_⟩
      intro item left
      cases left
      exact ⟨depth, rfl⟩

end ChatPreview
