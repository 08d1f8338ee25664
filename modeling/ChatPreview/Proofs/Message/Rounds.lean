import ChatPreview.Proofs.Message.Leaf

namespace ChatPreview.Json
open Text Scan Token

/-- One part after the other, with commas between them, up to the bracket that closes the list. -/
inductive Rounds (part : Cursor → Cursor → Prop) (close : Char) : Cursor → Cursor → Prop where
  | last {c d : Cursor} (first : part c d) (closed : d.rest.head? = some close) :
      Rounds part close c d
  | more {c d e : Cursor} (first : part c d) (comma : d.rest.head? = some ',')
      (rest : Rounds part close (skipSpace (d.advance 1)) e) : Rounds part close c e

def ItemPart (item : Cursor → Read Value) (c d : Cursor) : Prop :=
  ∃ v e, item c = .ok (v, e) ∧ d = skipSpace e

def MemberPart (item : Cursor → Read Value) (c d : Cursor) : Prop :=
  ∃ key v e f, readKey c = .ok (key, e) ∧ item e = .ok (v, f) ∧ d = skipSpace f

section
variable {item : Cursor → Read Value} {c d : Cursor}

theorem rounds_of_items {vs : List Value} (read : readItems item c = .ok (vs, d)) :
    ∃ e, Rounds (ItemPart item) ']' c e ∧ d = e.advance 1 := by
  fun_induction readItems item c generalizing vs with
  | case1 => cases read
  | case2 c v c₁ first c₂ s =>
      rename_i closed
      cases read
      exact ⟨c₂, .last ⟨v, c₁, first, rfl⟩ (by rw [closed]; rfl), rfl⟩
  | case3 c v c₁ first c₂ s comma c₃ shorter =>
      rename_i ih
      cases rest : readItems item c₃ with
      | error e =>
          rw [rest] at read
          cases read
      | ok got =>
          rcases got with ⟨ws, c₄⟩
          rw [rest] at read
          cases read
          rcases ih rest with ⟨e, rounds, last⟩
          exact ⟨e, .more ⟨v, c₁, first, rfl⟩ (by rw [comma]; rfl) rounds, last⟩
  | case4 => cases read
  | case5 => cases read

theorem rounds_of_members {before ms : Members}
    (read : readMembers item before c = .ok (ms, d)) :
    ∃ e, Rounds (MemberPart item) '\x7d' c e ∧ d = e.advance 1 := by
  fun_induction readMembers item before c with
  | case1 => cases read
  | case2 => cases read
  | case3 before c key c₁ first v c₂ second c₃ members s closed =>
      have last : c₃.advance 1 = d := (Prod.mk.inj (Except.ok.inj read)).2
      exact ⟨c₃, .last ⟨key, v, c₁, c₂, first, second, rfl⟩ (by rw [closed]; rfl), last.symm⟩
  | case4 before c key c₁ first v c₂ second c₃ members s comma c₄ shorter ih =>
      rcases ih read with ⟨e, rounds, last⟩
      exact ⟨e, .more ⟨key, v, c₁, c₂, first, second, rfl⟩ (by rw [comma]; rfl) rounds, last⟩
  | case5 => cases read
  | case6 => cases read

theorem readKey_spec {key : Text} (read : readKey c = .ok (key, d)) (plain : Plain c.rest) :
    ∃ s e, c.rest = '"' :: s ∧ afterString? '"' s = some e.rest ∧ c.Reaches e ∧
      (skipSpace e).rest.head? = some ':' ∧ d = skipSpace ((skipSpace e).advance 1) := by
  rw [readKey] at read
  split at read
  · rename_i s split
    split at read
    · cases read
    · rename_i key' e found
      simp only at read
      split at read
      · rename_i colon
        cases read
        have quote : c.Reaches ⟨c.pos + 1, s⟩ := by
          have moved := Cursor.reaches_advance (c := c) (n := 1) (by simp [split])
          rwa [Cursor.advance, split] at moved
        rcases readString_spec found (plain.of_reaches quote) with ⟨closed, ahead⟩
        exact ⟨s, e, split, closed, quote.trans ahead, colon, rfl⟩
      · cases read
  · cases read

theorem reaches_head {x : Char} (head : c.rest.head? = some x) : c.Reaches (c.advance 1) := by
  rcases List.head?_eq_some_iff.1 head with ⟨s, split⟩
  exact c.reaches_advance (by simp [split])

/-- Whether a reader goes on in the text it reads, and never from a closing bracket. -/
def Sound (item : Cursor → Read Value) : Prop :=
  ∀ ⦃c v d⦄, Plain c.rest → item c = .ok (v, d) → c.Reaches d ∧ c.rest.head? ≠ some ']'

theorem Rounds.reaches {part : Cursor → Cursor → Prop} {close : Char}
    (parts : ∀ c d, Plain c.rest → part c d → c.Reaches d) (plain : Plain c.rest)
    (rounds : Rounds part close c d) : c.Reaches d := by
  induction rounds with
  | last first _ => exact parts _ _ plain first
  | more first comma _ ih =>
      have next := ((parts _ _ plain first).trans (reaches_head comma)).trans (reaches_json_skipSpace _)
      exact next.trans (ih (plain.of_reaches next))

theorem ItemPart.reaches (sound : Sound item) (plain : Plain c.rest) (part : ItemPart item c d) :
    c.Reaches d := by
  rcases part with ⟨v, e, read, rfl⟩
  exact (sound plain read).1.trans (reaches_json_skipSpace e)

theorem readKey_reaches {key : Text} (plain : Plain c.rest) (read : readKey c = .ok (key, d)) :
    c.Reaches d := by
  rcases readKey_spec read plain with ⟨s, e, _, _, ahead, colon, rfl⟩
  have space := ahead.trans (reaches_json_skipSpace e)
  exact (space.trans (reaches_head colon)).trans (reaches_json_skipSpace _)

theorem MemberPart.reaches (sound : Sound item) (plain : Plain c.rest)
    (part : MemberPart item c d) : c.Reaches d := by
  rcases part with ⟨key, v, e, f, first, second, rfl⟩
  have name := readKey_reaches plain first
  have value := (sound (plain.of_reaches name) second).1
  exact (name.trans value).trans (reaches_json_skipSpace f)

theorem Rounds.closed {part : Cursor → Cursor → Prop} {close : Char}
    (rounds : Rounds part close c d) : d.rest.head? = some close := by
  induction rounds with
  | last _ closed => exact closed
  | more _ _ _ ih => exact ih

end

def Bracketed (part : Cursor → Cursor → Prop) (opening close : Char) (c d : Cursor) : Prop :=
  c.rest.head? = some opening ∧ ∃ e, d = e.advance 1 ∧ e.rest.head? = some close ∧
    (e = skipSpace (c.advance 1) ∨ Rounds part close (skipSpace (c.advance 1)) e)

/-- A value of a message, whose parts `item` reads. -/
inductive Extent (inner : Option (Cursor → Read Value)) : Cursor → Cursor → Prop where
  | string {c d : Cursor} {s : List Char} (opens : c.rest = '"' :: s)
      (closes : afterString? '"' s = some d.rest) (ahead : c.Reaches d) : Extent inner c d
  | array {c d : Cursor} {item : Cursor → Read Value} (left : inner = some item)
      (list : Bracketed (ItemPart item) '[' ']' c d) : Extent inner c d
  | object {c d : Cursor} {item : Cursor → Read Value} (left : inner = some item)
      (list : Bracketed (MemberPart item) '\x7b' '\x7d' c d) : Extent inner c d
  | atom {c d : Cursor} (run : Runs inAtom c d) (further : c.pos < d.pos) : Extent inner c d

section
variable {inner : Option (Cursor → Read Value)} {c d : Cursor}

theorem extent_of_array {item : Cursor → Read Value} {s : List Char} {v : Value}
    (opens : c.rest = '[' :: s) (read : readOne (some item) c = .ok (v, d)) :
    Extent (some item) c d := by
  have head : c.rest.head? = some '[' := by rw [opens]; rfl
  rw [readOne, opens] at read
  simp only at read
  split at read
  · rename_i closed
    cases read
    exact .array rfl ⟨head, _, rfl, closed, .inl rfl⟩
  · cases list : readItems item (skipSpace (c.advance 1)) with
    | error e =>
        rw [list] at read
        cases read
    | ok got =>
        rcases got with ⟨vs, d'⟩
        rw [list] at read
        cases read
        rcases rounds_of_items list with ⟨e, rounds, rfl⟩
        exact .array rfl ⟨head, e, rfl, rounds.closed, .inr rounds⟩

theorem extent_of_object {item : Cursor → Read Value} {s : List Char} {v : Value}
    (opens : c.rest = '\x7b' :: s) (read : readOne (some item) c = .ok (v, d)) :
    Extent (some item) c d := by
  have head : c.rest.head? = some '\x7b' := by rw [opens]; rfl
  rw [readOne, opens] at read
  simp only at read
  split at read
  · rename_i closed
    cases read
    exact .object rfl ⟨head, _, rfl, closed, .inl rfl⟩
  · cases list : readMembers item [] (skipSpace (c.advance 1)) with
    | error e =>
        rw [list] at read
        cases read
    | ok got =>
        rcases got with ⟨ms, d'⟩
        rw [list] at read
        cases read
        rcases rounds_of_members list with ⟨e, rounds, rfl⟩
        exact .object rfl ⟨head, e, rfl, rounds.closed, .inr rounds⟩

theorem extent_of_string {s : List Char} {v : Value} (plain : Plain c.rest)
    (opens : c.rest = '"' :: s) (read : readOne inner c = .ok (v, d)) : Extent inner c d := by
  rw [readOne.eq_def, opens] at read
  simp only at read
  cases found : readString c.pos (c.pos + 1) s with
  | error e =>
      rw [found] at read
      cases read
  | ok got =>
      rcases got with ⟨u, d'⟩
      rw [found] at read
      cases read
      have quote : c.Reaches ⟨c.pos + 1, s⟩ := by
        have moved := Cursor.reaches_advance (c := c) (n := 1) (by simp [opens])
        rwa [Cursor.advance, opens] at moved
      rcases readString_spec found (plain.of_reaches quote) with ⟨closed, ahead⟩
      exact .string opens closed (quote.trans ahead)

theorem extent_of_readOne {v : Value} (plain : Plain c.rest)
    (read : readOne inner c = .ok (v, d)) : Extent inner c d := by
  have whole := read
  rw [readOne.eq_def] at read
  split at read
  · exact extent_of_string plain ‹_› whole
  · cases inner with
    | none => cases read
    | some item => exact extent_of_array ‹_› whole
  · cases inner with
    | none => cases read
    | some item => exact extent_of_object ‹_› whole
  · split at read
    · rename_i word v found
      cases read
      have first := List.find?_some found
      have starts := List.isPrefixOf_iff_prefix.1 (show word.isPrefixOf c.rest from first)
      rcases literals_inAtom (List.mem_of_find?_eq_some found) with ⟨nonempty, all⟩
      have := List.length_pos_iff.2 nonempty
      exact .atom (.advance starts all) (by simp only [Cursor.advance]; omega)
    · rcases readNumber_runs read with ⟨run, further⟩
      exact .atom run further

theorem Extent.head_ne (extent : Extent inner c d) : c.rest.head? ≠ some ']' := by
  cases extent with
  | string opens => simp [opens]
  | array _ list => simp [list.1]
  | object _ list => simp [list.1]
  | atom run further =>
      rcases run.head further with ⟨x, s, split, inside⟩
      rw [split, List.head?_cons]
      rintro same
      cases same
      cases inside

theorem Bracketed.closes {part : Cursor → Cursor → Prop} {opening close : Char}
    (parts : ∀ c d, Plain c.rest → part c d → c.Reaches d) (plain : Plain c.rest)
    (list : Bracketed part opening close c d) :
    ∃ e, c.Reaches e ∧ e.rest.head? = some close ∧ d = e.advance 1 := by
  rcases list with ⟨opens, e, last, closed, rounds⟩
  have first := (reaches_head opens).trans (reaches_json_skipSpace _)
  rcases rounds with rfl | rounds
  · exact ⟨_, first, closed, last⟩
  · exact ⟨e, first.trans (rounds.reaches parts (plain.of_reaches first)), closed, last⟩

theorem Bracketed.reaches {part : Cursor → Cursor → Prop} {opening close : Char}
    (parts : ∀ c d, Plain c.rest → part c d → c.Reaches d) (plain : Plain c.rest)
    (list : Bracketed part opening close c d) : c.Reaches d := by
  rcases list.closes parts plain with ⟨e, ahead, closed, rfl⟩
  exact ahead.trans (reaches_head closed)

theorem sound_readOne (sound : ∀ item ∈ inner, Sound item) : Sound (readOne inner) := by
  intro c v d plain read
  have extent := extent_of_readOne plain read
  refine ⟨?_, extent.head_ne⟩
  cases extent with
  | string _ _ ahead => exact ahead
  | array left list =>
      exact list.reaches (fun _ _ plain part => part.reaches (sound _ left) plain) plain
  | object left list =>
      exact list.reaches (fun _ _ plain part => part.reaches (sound _ left) plain) plain
  | atom run _ => exact run.reaches

theorem sound_readValue (levels : Nat) : Sound (readValue levels) := by
  induction levels with
  | zero =>
      change Sound (readOne none)
      exact sound_readOne (by simp)
  | succ levels ih =>
      change Sound (readOne (some (readValue levels)))
      apply sound_readOne
      intro item left
      cases left
      exact ih

end
end ChatPreview.Json
