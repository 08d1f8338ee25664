import ChatPreview.Proofs.Nesting.Token
import ChatPreview.Proofs.Message.Whole

namespace ChatPreview
open Text Scan Token

def Kind.Enclosed (kind : Kind) : Prop := kind = .array ∨ kind = .object ∨ kind = .string

instance (kind : Kind) : Decidable kind.Enclosed := inferInstanceAs (Decidable (_ ∨ _))

section
variable {inner : Deeper} {stops : Char → Bool} {c d : Cursor} {n : Node}

theorem closes_of_list {α β : Type} {close : Char} {part : Scan Node → Scan α}
    (forward : ∀ v ∈ inner, Forward (part v)) {g : List α → β} {b : β}
    (read : (nested inner (fun v => separated (part v) comma) >>= fun as =>
      space >>= fun _ => expect [close] >>= fun _ => pure (g as)) c = .ok b d) :
    ∃ e, c.Reaches e ∧ e.rest = close :: d.rest := by
  obtain ⟨as, e, first, rest⟩ := bind_eq_ok.1 read
  obtain ⟨got, f, last, ended⟩ := bind_eq_ok.1
    (show (expect [close] >>= fun _ => pure (g as)) (skipSpace e) = _ from rest)
  cases ended
  have list : Forward (nested inner fun v => separated (part v) comma) :=
    forward_nested fun v left => forward_separated (forward v left) forward_comma
  exact ⟨skipSpace e, (list first).trans (reaches_skipSpace e), rest_of_expect last⟩

/-- What is read of the text that a node stands for: its last character is no white space. -/
def ReadsInk (c d : Cursor) : Prop := ∃ read x, c.rest = read ++ x :: d.rest ∧ isSpace x = false

theorem readsInk_of_list {opening close : Char} (first : c.rest = opening :: d.rest)
    {e f : Cursor} (ahead : d.Reaches e) (closed : e.rest = close :: f.rest)
    (ink : isSpace close = false) : ReadsInk c f := by
  obtain ⟨read, split, _⟩ := ahead
  exact ⟨opening :: read, close, by rw [first, split, closed]; rfl, ink⟩

theorem readsInk_of_object (forward : ∀ v ∈ inner, Forward v) (read : object inner c = .ok n d) :
    ReadsInk c d := by
  obtain ⟨children, body, rfl⟩ := node_eq_ok.1 read
  obtain ⟨mark, e, opening, rest⟩ := bind_eq_ok.1 body
  obtain ⟨f, ahead, closed⟩ := closes_of_list (fun v left => forward_entry (forward v left)) rest
  exact readsInk_of_list (rest_of_expect opening) ahead closed rfl

theorem readsInk_of_array (forward : ∀ v ∈ inner, Forward v) (read : array inner c = .ok n d) :
    ReadsInk c d := by
  obtain ⟨children, body, rfl⟩ := node_eq_ok.1 read
  obtain ⟨mark, e, opening, rest⟩ := bind_eq_ok.1 body
  obtain ⟨f, ahead, closed⟩ := closes_of_list (g := id)
    (fun v left => forward_element (forward v left)) rest
  exact readsInk_of_list (rest_of_expect opening) ahead closed rfl

theorem readsInk_of_string (read : string c = .ok n d) : ReadsInk c d := by
  unfold string at read
  split at read
  · cases read
  · rename_i quote s split
    split at read
    · rename_i quoted
      split at read
      · rename_i rest closed
        cases read
        obtain ⟨inside, rfl⟩ := Json.afterString?_last closed
        refine ⟨quote :: inside, quote, by rw [split]; rfl, ?_⟩
        rw [isQuote_iff] at quoted
        rcases quoted with rfl | rfl <;> rfl
      · cases read
    · cases read

theorem opens_of_item (forward : ∀ v ∈ inner, Forward v) (enclosed : n.kind.Enclosed)
    (read : item stops inner c = .ok n d) :
    Preview.opens c.rest = some n.kind ∧ ReadsInk c d := by
  obtain ⟨t, member, first⟩ := exists_of_firstOf read
  simp only [List.mem_cons, List.not_mem_nil, or_false] at member
  rcases member with rfl | rfl | rfl | rfl | rfl
  · obtain ⟨s, split⟩ := List.head?_eq_some_iff.1 (opens_of_object first)
    obtain ⟨children, _, rfl⟩ := node_eq_ok.1 first
    exact ⟨by rw [split]; rfl, readsInk_of_object forward first⟩
  · obtain ⟨s, split⟩ := List.head?_eq_some_iff.1 (opens_of_array first)
    obtain ⟨children, _, rfl⟩ := node_eq_ok.1 first
    exact ⟨by rw [split]; rfl, readsInk_of_array forward first⟩
  · refine ⟨?_, readsInk_of_string first⟩
    unfold string at first
    split at first
    · cases first
    · rename_i quote s split
      split at first
      · rename_i quoted
        rw [isQuote_iff] at quoted
        split at first <;> cases first
        rw [split]
        rcases quoted with rfl | rfl <;> rfl
      · cases first
  · obtain ⟨children, _, rfl⟩ := node_eq_ok.1 first
    rcases enclosed with other | other | other <;> cases other
  · unfold word at first
    split at first
    · cases first
    · simp only at first
      split at first <;> cases first
      rcases enclosed with other | other | other <;> cases other

theorem head_ne_mark_of_opens {s : List Char} {kind : Kind} (opened : Preview.opens s = some kind) :
    s.head? ≠ some '@' := by
  unfold Preview.opens at opened
  split at opened <;> cases opened <;> simp

end

section
variable {limit limit' : Int} {c d : Cursor} {n : Node}

theorem item_of_top (read : top limit c = .ok n d) :
    item endsWord (inside limit limit.toNat) c = .ok n d := by
  unfold top at read
  split at read <;> cases read
  assumption

theorem top_of_fewer (le : limit ≤ limit') (enclosed : n.kind.Enclosed)
    (read : top limit c = .ok n d) : top limit' c = .ok n d := by
  have first := item_of_top read
  have opened := (opens_of_item (forward_inside limit limit.toNat) enclosed first).1
  apply top_of_ok
  exact (narrowsInner_inside (Int.toNat_le_toNat le)).item_of_ok delimits_endsWord
    (head_ne_mark_of_opens opened) first

theorem top_of_more (le : limit ≤ limit') (enclosed : n.kind.Enclosed)
    (read : top limit' c = .ok n d) : top limit c = .ok n d ∨ (top limit c).Fails := by
  have first := item_of_top read
  have opened := (opens_of_item (forward_inside limit' limit'.toNat) enclosed first).1
  cases short : top limit c with
  | fail e f => exact .inr ⟨e, f, rfl⟩
  | ok m e =>
      have narrows : NarrowsInner (inside limit limit.toNat) (inside limit' limit'.toNat) :=
        narrowsInner_inside (Int.toNat_le_toNat le)
      have same := narrows.item_of_ok delimits_endsWord
        (head_ne_mark_of_opens opened) (item_of_top short)
      rw [first] at same
      cases same
      exact .inl rfl

end
end ChatPreview
