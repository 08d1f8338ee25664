import ChatPreview.Proofs.Nesting.Message
import ChatPreview.Proofs.Nodes.Alone

namespace ChatPreview
open Text Scan Token

structure EndsIn (p : Char → Prop) (c d : Cursor) : Prop where
  first : ∃ x ∈ c.rest.head?, p x
  last : ∃ read y, c.rest = read ++ y :: d.rest ∧ p y

section
variable {inner : Deeper} {stops : Char → Bool} {c d : Cursor} {n : Node} {x : Char}

theorem not_isSpace_of_isQuote (quote : isQuote x) : isSpace x = false := by
  rw [isQuote_iff] at quote
  rcases quote with rfl | rfl
  · rfl
  · rfl

theorem not_isSpace_of_selectorClass (letter : selectorClass.has x) : isSpace x = false := by
  rw [CharClass.has, selectorClass, Bool.bne_false, List.any_map, List.any_eq_true] at letter
  obtain ⟨y, listed, same⟩ := letter
  simp only [Function.comp_apply, Bool.and_eq_true, decide_eq_true_eq] at same
  have each : "aeprsn".toList.all (!isSpace ·) := by decide
  rw [Char.le_antisymm same.2 same.1]
  simpa using List.all_eq_true.mp each y listed

theorem readsInk_of_selector (forward : ∀ v ∈ inner, Forward v)
    (read : selector inner c = .ok n d) : ReadsInk c d := by
  obtain ⟨letter, s, split, listed, given, _, rfl⟩ := selector_eq_ok.mp read
  rcases optionalArguments_eq_ok.mp given with ⟨_, list⟩ | ⟨_, rfl⟩
  · obtain ⟨v, left, us, e, head, parts, close, rfl⟩ := arguments_eq_ok.mp list
    have start : c.Reaches (c.advance 2) := c.reaches_advance (by simp [split])
    have opened := (start.trans (Json.reaches_head head)).trans (reaches_skipSpace _)
    have ahead := forward_separated (forward_argument (forward v left)) forward_comma parts
    obtain ⟨text, rest, _⟩ := (opened.trans ahead).trans (reaches_skipSpace e)
    obtain ⟨t, last⟩ := List.head?_eq_some_iff.mp close
    refine ⟨text, ']', ?_, rfl⟩
    rw [rest, Cursor.advance, last]
    rfl
  · refine ⟨['@'], letter, ?_, not_isSpace_of_selectorClass listed⟩
    rw [Cursor.advance, split]
    rfl

theorem endsIn_word (read : word stops c = .ok n d) : EndsIn (stops · = false) c d := by
  obtain ⟨_, nonempty, rfl, rfl⟩ := word_eq_ok.mp read
  have free {y : Char} (member : y ∈ wordChars stops c.rest) : stops y = false :=
    not_stops_of_mem_wordChars member
  obtain ⟨rest, split⟩ := wordChars_isPrefix stops c.rest
  generalize wordChars stops c.rest = chars at *
  have after : (c.advance chars.length).rest = rest := by
    rw [Cursor.advance, ← split, List.drop_left]
  constructor
  · refine ⟨chars.head nonempty, ?_, free (List.head_mem nonempty)⟩
    rw [← split, List.head?_append_of_ne_nil chars nonempty]
    exact List.head?_eq_some_head nonempty
  · refine ⟨chars.dropLast, chars.getLast nonempty, ?_, free (List.getLast_mem nonempty)⟩
    rw [after, ← split, List.append_cons, List.dropLast_concat_getLast nonempty]

/-- A node starts and ends with no white space, unless it is a word. -/
theorem endsIn_item (forward : ∀ v ∈ inner, Forward v) (read : item stops inner c = .ok n d) :
    n.kind ≠ .comment ∧ (n.kind = .literal ∧ EndsIn (stops · = false) c d ∨
      n.kind ≠ .literal ∧ EndsIn (isSpace · = false) c d) := by
  rcases item_cases read with object | array | string | selector | word
  · have last := readsInk_of_object forward object
    obtain ⟨_, _, _, _, head, _, _, _, rfl⟩ := object_eq_ok.mp object
    exact ⟨nofun, .inr ⟨nofun, ⟨_, head, rfl⟩, last⟩⟩
  · have last := readsInk_of_array forward array
    obtain ⟨_, _, _, _, head, _, _, _, rfl⟩ := array_eq_ok.mp array
    exact ⟨nofun, .inr ⟨nofun, ⟨_, head, rfl⟩, last⟩⟩
  · have last := readsInk_of_string string
    obtain ⟨quote, s, split, opens, _, _, rfl⟩ := string_eq_ok.mp string
    have head : c.rest.head? = some quote := by rw [split]; rfl
    exact ⟨nofun, .inr ⟨nofun, ⟨quote, head, not_isSpace_of_isQuote opens⟩, last⟩⟩
  · have last := readsInk_of_selector forward selector
    obtain ⟨letter, s, split, _, _, _, rfl⟩ := selector_eq_ok.mp selector
    have head : c.rest.head? = some '@' := by rw [split]; rfl
    exact ⟨nofun, .inr ⟨nofun, ⟨'@', head, rfl⟩, last⟩⟩
  · have ends := endsIn_word word
    obtain ⟨_, _, _, rfl⟩ := word_eq_ok.mp word
    exact ⟨nofun, .inl ⟨rfl, ends⟩⟩

end
end ChatPreview
