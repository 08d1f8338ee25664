import ChatPreview.Proofs.Message.Apart
import ChatPreview.Proofs.Message.Rounds

namespace ChatPreview.Json
open Text Scan Token

/-- The second text is the first without some spaces outside of its strings. -/
inductive Thins : List Char → List Char → Prop where
  | none : Thins [] []
  | drop {x : Char} {s t : List Char} (space : isSpace x) (rest : Thins s t) : Thins (x :: s) t
  | keep {x : Char} {s t : List Char} (noQuote : x ≠ '"') (rest : Thins s t) :
      Thins (x :: s) (x :: t)
  | string {q s t : List Char} (closing : Closing q) (rest : Thins s t) :
      Thins ('"' :: (q ++ s)) ('"' :: (q ++ t))

section
variable {s t : List Char} {x : Char}

theorem Thins.eq_nil (thins : Thins [] t) : t = [] := by
  cases thins
  rfl

theorem Thins.of_cons (thins : Thins (x :: s) t) (ink : isSpace x = false) (noQuote : x ≠ '"') :
    ∃ t', t = x :: t' ∧ Thins s t' := by
  cases thins with
  | drop space =>
      rw [ink] at space
      cases space
  | keep _ rest => exact ⟨_, rfl, rest⟩
  | string => exact absurd rfl noQuote

theorem Thins.head (thins : Thins s t) (head : s.head? = some x) (ink : isSpace x = false) :
    t.head? = some x := by
  cases thins with
  | none => cases head
  | drop space =>
      cases head
      rw [ink] at space
      cases space
  | keep => exact head
  | string => exact head

theorem ink_of_atom (atom : inAtom x) : isSpace x = false ∧ x ≠ '"' := by
  constructor
  · rw [Bool.eq_false_iff]
    intro space
    simp only [isSpace, List.contains_eq_mem, List.mem_cons, List.not_mem_nil, or_false,
      decide_eq_true_eq] at space
    rcases space with rfl | rfl | rfl | rfl <;> cases atom
  · rintro rfl
    cases atom

theorem Thins.of_run {run : List Char} (thins : Thins (run ++ s) t) (atoms : ∀ x ∈ run, inAtom x) :
    ∃ t', t = run ++ t' ∧ Thins s t' := by
  induction run generalizing t with
  | nil => exact ⟨t, rfl, thins⟩
  | cons x run ih =>
      have atom := atoms x List.mem_cons_self
      obtain ⟨ink, noQuote⟩ := ink_of_atom atom
      obtain ⟨t', rfl, rest⟩ := thins.of_cons ink noQuote
      obtain ⟨t'', rfl, last⟩ := ih rest fun y member => atoms y (List.mem_cons_of_mem x member)
      exact ⟨t'', rfl, last⟩

theorem Thins.append_left {run : List Char} (thins : Thins s t) (noQuote : ∀ x ∈ run, x ≠ '"') :
    Thins (run ++ s) (run ++ t) := by
  induction run with
  | nil => exact thins
  | cons x run ih =>
      have rest := ih fun y member => noQuote y (List.mem_cons_of_mem x member)
      exact .keep (noQuote x List.mem_cons_self) rest

theorem Thins.dropSpace (thins : Thins s t) :
    Thins (s.dropWhile isSpace) (t.dropWhile isSpace) := by
  induction thins with
  | none => exact .none
  | drop space _ ih =>
      rw [List.dropWhile_cons_of_pos space]
      exact ih
  | @keep x s t noQuote rest ih =>
      by_cases space : isSpace x
      · rw [List.dropWhile_cons_of_pos space, List.dropWhile_cons_of_pos space]
        exact ih
      · rw [List.dropWhile_cons_of_neg space, List.dropWhile_cons_of_neg space]
        exact .keep noQuote rest
  | string closing rest _ =>
      rw [List.dropWhile_cons_of_neg (by decide), List.dropWhile_cons_of_neg (by decide)]
      exact .string closing rest

end

theorem Thins.skipSpace {c c' : Cursor} (thins : Thins c.rest c'.rest) :
    Thins (skipSpace c).rest (skipSpace c').rest := by
  rw [Json.skipSpace, Json.skipSpace, Cursor.skipWhile_rest, Cursor.skipWhile_rest]
  exact thins.dropSpace

theorem skipSpace_length (c : Cursor) : (skipSpace c).rest.length ≤ c.rest.length :=
  (reaches_json_skipSpace c).suffix.length_le

section
variable {s t : List Char}

theorem readString_thins {opening pos opening' pos' : Nat} {u : Text} {d : Cursor}
    (read : readString opening pos s = .ok (u, d)) (thins : Thins ('"' :: s) ('"' :: t)) :
    ∃ d', readString opening' pos' t = .ok (u, d') ∧ Thins d.rest d'.rest ∧
      d'.rest.length < t.length := by
  obtain ⟨q, rfl, closing, spells⟩ := readString_local ⟨d.pos, read⟩
  generalize whole : '"' :: (q ++ d.rest) = w at thins
  generalize whole' : '"' :: t = w' at thins
  cases thins with
  | none => cases whole
  | drop space =>
      cases whole
      cases space
  | keep noQuote =>
      cases whole
      exact absurd rfl noQuote
  | @string q' s' t' closing' rest =>
      obtain ⟨rfl, rfl⟩ := closing.unique closing' (List.cons.inj whole).2
      obtain rfl := (List.cons.inj whole').2
      obtain ⟨place, read'⟩ := spells opening' pos' t'
      refine ⟨⟨place, t'⟩, read', rest, ?_⟩
      have more := List.length_pos_iff.2 closing.ne_nil
      rw [List.length_append]
      change t'.length < _
      omega

end

def Ends (s : List Char) : Prop :=
  ∀ x ∈ (s.dropWhile isSpace).head?, x = ',' ∨ x = ']' ∨ x = '\x7d'

theorem Ends.thins {s t : List Char} (ends : Ends s) (thins : Thins s t) : Ends t := by
  have tail := thins.dropSpace
  intro x head
  cases split : s.dropWhile isSpace with
  | nil =>
      rw [split] at tail
      rw [tail.eq_nil] at head
      cases head
  | cons y w =>
      have mark : y = ',' ∨ y = ']' ∨ y = '\x7d' := ends y (by rw [split]; rfl)
      have ink : isSpace y = false := by rcases mark with rfl | rfl | rfl <;> rfl
      have same := tail.head (by rw [split]; rfl) ink
      rw [head] at same
      rwa [Option.some.inj same]

theorem Ends.halts {s : List Char} (ends : Ends s) : Halts s := by
  intro x head atom
  obtain ⟨t, rfl⟩ := List.head?_eq_some_iff.1 head
  by_cases space : isSpace x
  · rw [(ink_of_atom atom).1] at space
    cases space
  · have mark := ends x (by rw [List.dropWhile_cons_of_neg space]; rfl)
    rcases mark with rfl | rfl | rfl <;> cases atom

/-- Whether a reader gives the same without some spaces, where it leaves a text that `ends` allows. -/
def Keeps {α : Type} (ends : List Char → Prop) (read : Cursor → Read α) : Prop :=
  ∀ ⦃c c' d a⦄, read c = .ok (a, d) → ends d.rest → Thins c.rest c'.rest →
    ∃ d', read c' = .ok (a, d') ∧ Thins d.rest d'.rest ∧ d'.rest.length < c'.rest.length

/-! ## Numbers and names -/

theorem prefix_of_halts {word run t : List Char} (first : word <+: run ++ t)
    (atoms : ∀ x ∈ word, inAtom x) (halts : Halts t) : word <+: run := by
  obtain ⟨u, split⟩ := first
  rcases List.append_eq_append_iff.1 split with ⟨v, rfl, _⟩ | ⟨v, rfl, tail⟩
  · exact List.prefix_append word v
  · cases v with
    | nil => simp
    | cons x v =>
        have head : t.head? = some x := by rw [tail]; rfl
        exact absurd (atoms x (by simp)) (halts x head)

theorem listed_of_find? {word s : List Char} {v : Value}
    (found : literals.find? (·.1.isPrefixOf s) = some (word, v)) :
    (word, v) ∈ literals ∧ word <+: s := by
  have first : word.isPrefixOf s := by simpa using List.find?_some found
  exact ⟨List.mem_of_find?_eq_some found, List.isPrefixOf_iff_prefix.1 first⟩

theorem literals_find? {word : List Char} {v : Value} (listed : (word, v) ∈ literals)
    (s : List Char) : literals.find? (·.1.isPrefixOf (word ++ s)) = some (word, v) := by
  simp only [literals, List.mem_cons, Prod.mk.injEq, List.not_mem_nil, or_false] at listed
  rcases listed with ⟨rfl, rfl⟩ | ⟨rfl, rfl⟩ | ⟨rfl, rfl⟩ | ⟨rfl, rfl⟩ | ⟨rfl, rfl⟩ | ⟨rfl, rfl⟩ <;> rfl

theorem literals_find?_eq_none {run s t : List Char} (halts : Halts t)
    (missing : literals.find? (·.1.isPrefixOf (run ++ s)) = none) :
    literals.find? (·.1.isPrefixOf (run ++ t)) = none := by
  rw [List.find?_eq_none] at missing ⊢
  intro literal listed first
  have inside := prefix_of_halts (List.isPrefixOf_iff_prefix.1 first) (literals_inAtom listed).2 halts
  apply missing literal listed
  rw [List.isPrefixOf_iff_prefix]
  exact inside.trans (List.prefix_append run s)

theorem readNumber_thins {c c' d : Cursor} {v : Value} (read : readNumber c = .ok (v, d))
    (ends : Ends d.rest) (thins : Thins c.rest c'.rest) :
    ∃ run d', run ≠ [] ∧ c.rest = run ++ d.rest ∧ c'.rest = run ++ d'.rest ∧
      Thins d.rest d'.rest ∧ readNumber c' = .ok (v, d') := by
  obtain ⟨⟨run, split, length, atoms⟩, further⟩ := readNumber_runs read
  rw [split] at thins
  obtain ⟨t, split', rest⟩ := thins.of_run atoms
  have here := readNumber_append ends.halts (show Extends d.rest ⟨0, run⟩ c from split)
  have there := readNumber_append (ends.thins rest).halts (show Extends t ⟨0, run⟩ c' from split')
  rw [yields_iff.1 ⟨d.pos, read⟩] at here
  obtain ⟨⟨w, left⟩, alone, same⟩ := Option.map_eq_some_iff.1 here.symm
  obtain ⟨rfl, nothing⟩ := Prod.mk.inj same
  rw [List.append_left_eq_self] at nothing
  subst nothing
  rw [alone] at there
  obtain ⟨pos, read'⟩ := yields_iff.2 there
  refine ⟨run, ⟨pos, t⟩, ?_, split, split', rest, read'⟩
  rintro rfl
  rw [List.length_nil] at length
  omega

def readAtom (c : Cursor) : Read Value :=
  match literals.find? (·.1.isPrefixOf c.rest) with
  | some (word, v) => .ok (v, c.advance word.length)
  | none => readNumber c

theorem readAtom_keeps : Keeps Ends readAtom := by
  intro c c' d v read ends thins
  rw [readAtom] at read
  split at read
  · rename_i word v' found
    cases read
    obtain ⟨listed, r, split⟩ := listed_of_find? found
    obtain ⟨nonempty, atoms⟩ := literals_inAtom listed
    rw [← split] at thins
    obtain ⟨t, split', rest⟩ := thins.of_run atoms
    have more := List.length_pos_iff.2 nonempty
    refine ⟨c'.advance word.length, ?_, ?_, ?_⟩
    · rw [readAtom, split', literals_find? listed]
    · rwa [Cursor.advance, Cursor.advance, ← split, split', List.drop_left, List.drop_left]
    · rw [Cursor.advance, split', List.drop_left, List.length_append]
      change t.length < _
      omega
  · rename_i other
    obtain ⟨run, d', nonempty, split, split', rest, same⟩ := readNumber_thins read ends thins
    have more := List.length_pos_iff.2 nonempty
    refine ⟨d', ?_, rest, ?_⟩
    · rw [split] at other
      rw [readAtom, split', literals_find?_eq_none (ends.thins rest).halts other]
      exact same
    · rw [split', List.length_append]
      omega

/-! ## Arrays and objects -/

section
variable {item : Cursor → Read Value} {c c' : Cursor} {x : Char}

theorem Thins.past {s : List Char} (thins : Thins c.rest c'.rest)
    (mark : (Json.skipSpace c).rest = x :: s) (ink : isSpace x = false) (noQuote : x ≠ '"') :
    (∃ t, (Json.skipSpace c').rest = x :: t) ∧
      ((Json.skipSpace c').advance 1).rest.length < c'.rest.length ∧
      Thins ((Json.skipSpace c).advance 1).rest ((Json.skipSpace c').advance 1).rest := by
  have tail := thins.skipSpace
  rw [mark] at tail
  obtain ⟨t, split, rest⟩ := tail.of_cons ink noQuote
  have length := skipSpace_length c'
  rw [split, List.length_cons] at length
  rw [Cursor.advance, Cursor.advance, mark, split]
  exact ⟨⟨t, rfl⟩, length, rest⟩

theorem ends_of_mark {s : List Char} (mark : (skipSpace c).rest = x :: s)
    (known : x = ',' ∨ x = ']' ∨ x = '\x7d') : Ends c.rest := by
  intro y head
  rw [skipSpace, Cursor.skipWhile_rest] at mark
  rw [mark] at head
  cases head
  exact known

theorem readItems_keeps (keeps : Keeps Ends item) : Keeps (fun _ => True) (readItems item) := by
  intro c c' d vs read _ thins
  fun_induction readItems item c generalizing vs c' with
  | case1 => cases read
  | case2 c v c₁ first c₂ w =>
      rename_i closed
      cases read
      obtain ⟨d', first', rest, shorter⟩ :=
        keeps first (ends_of_mark closed (.inr (.inl rfl))) thins
      obtain ⟨⟨t, closed'⟩, less, last⟩ := rest.past closed rfl (by decide)
      refine ⟨(skipSpace d').advance 1, ?_, last, Nat.lt_trans less shorter⟩
      rw [readItems, first']
      simp only [closed']
  | case3 c v c₁ first c₂ w comma c₃ =>
      rename_i ih
      obtain ⟨d', first', rest, shorter⟩ := keeps first (ends_of_mark comma (.inl rfl)) thins
      obtain ⟨⟨t, comma'⟩, less, last⟩ := rest.past comma rfl (by decide)
      have ahead := skipSpace_length ((skipSpace d').advance 1)
      cases more : readItems item c₃ with
      | error e =>
          rw [more] at read
          cases read
      | ok got =>
          rw [more] at read
          cases read
          obtain ⟨e', more', ended, shorter'⟩ := ih more last.skipSpace
          refine ⟨e', ?_, ended, by omega⟩
          rw [readItems, first']
          simp only [comma']
          rw [if_pos (by omega), more']
          rfl
  | case4 => cases read
  | case5 => cases read

theorem Thins.quoted {s : List Char} {u : Text} {d : Cursor} (thins : Thins c.rest c'.rest)
    (opens : c.rest = '"' :: s) (read : readString c.pos (c.pos + 1) s = .ok (u, d)) :
    ∃ t d', c'.rest = '"' :: t ∧ readString c'.pos (c'.pos + 1) t = .ok (u, d') ∧
      Thins d.rest d'.rest ∧ d'.rest.length < c'.rest.length := by
  have head : c'.rest.head? = some '"' := thins.head (by rw [opens]; rfl) rfl
  obtain ⟨t, opens'⟩ := List.head?_eq_some_iff.1 head
  rw [opens, opens'] at thins
  obtain ⟨d', read', rest, shorter⟩ := readString_thins read thins
  refine ⟨t, d', opens', read', rest, ?_⟩
  rw [opens', List.length_cons]
  omega

theorem readKey_keeps : Keeps (fun _ => True) readKey := by
  intro c c' d key read _ thins
  rw [readKey] at read
  split at read
  · rename_i s opens
    split at read
    · cases read
    · rename_i key' c₁ found
      simp only at read
      split at read
      · rename_i colon
        cases read
        obtain ⟨t, d', opens', found', rest, shorter⟩ := thins.quoted opens found
        obtain ⟨w, mark⟩ := List.head?_eq_some_iff.1 colon
        obtain ⟨⟨w', mark'⟩, less, last⟩ := rest.past mark rfl (by decide)
        have ahead := skipSpace_length ((skipSpace d').advance 1)
        refine ⟨skipSpace ((skipSpace d').advance 1), ?_, last.skipSpace, by omega⟩
        rw [readKey, opens']
        simp only [found']
        rw [if_pos (by rw [mark']; rfl)]
      · cases read
  · cases read

theorem readMembers_keeps (keeps : Keeps Ends item) (before : Members) :
    Keeps (fun _ => True) (readMembers item before) := by
  intro c c' d ms read _ thins
  fun_induction readMembers item before c generalizing c' with
  | case1 => cases read
  | case2 => cases read
  | case3 before c key c₁ first v c₂ second c₃ members w =>
      rename_i closed
      obtain ⟨same, rfl⟩ := Prod.mk.inj (Except.ok.inj read)
      obtain ⟨d₁, first', rest₁, shorter₁⟩ := readKey_keeps first trivial thins
      obtain ⟨d₂, second', rest₂, shorter₂⟩ :=
        keeps second (ends_of_mark closed (.inr (.inr rfl))) rest₁
      obtain ⟨⟨t, closed'⟩, less, last⟩ := rest₂.past closed rfl (by decide)
      refine ⟨(skipSpace d₂).advance 1, ?_, last, by omega⟩
      rw [readMembers, first', ← same]
      simp only [second', closed']
      rfl
  | case4 before c key c₁ first v c₂ second c₃ members w comma c₄ =>
      rename_i ih
      obtain ⟨d₁, first', rest₁, shorter₁⟩ := readKey_keeps first trivial thins
      obtain ⟨d₂, second', rest₂, shorter₂⟩ := keeps second (ends_of_mark comma (.inl rfl)) rest₁
      obtain ⟨⟨t, comma'⟩, less, last⟩ := rest₂.past comma rfl (by decide)
      have ahead := skipSpace_length ((skipSpace d₂).advance 1)
      obtain ⟨e', more', ended, shorter'⟩ := ih read last.skipSpace
      refine ⟨e', ?_, ended, by omega⟩
      rw [readMembers, first']
      simp only [second', comma']
      rw [if_pos (by omega)]
      exact more'
  | case5 => cases read
  | case6 => cases read

end

/-! ## Values -/

section
variable {α β : Type} {ends : List Char → Prop} {read : Cursor → Read α}

theorem Keeps.map (keeps : Keeps ends read) (f : α → β) :
    Keeps ends fun c => (read c).map fun (a, d) => (f a, d) := by
  intro c c' d b found allowed thins
  simp only at found
  cases inner : read c with
  | error e =>
      rw [inner] at found
      cases found
  | ok got =>
      rw [inner] at found
      cases found
      obtain ⟨d', inner', rest, shorter⟩ := keeps inner allowed thins
      exact ⟨d', by simp only [inner']; rfl, rest, shorter⟩

theorem Thins.skipSpace_head {c c' : Cursor} (thins : Thins c.rest c'.rest) :
    (Json.skipSpace c').rest.head? = (Json.skipSpace c).rest.head? := by
  have tail := thins.skipSpace
  cases split : (Json.skipSpace c).rest with
  | nil =>
      rw [split] at tail
      rw [tail.eq_nil]
  | cons x s =>
      have ink := List.head?_dropWhile_not isSpace c.rest
      rw [Json.skipSpace, Cursor.skipWhile_rest] at split
      rw [split] at ink
      exact tail.head (by rw [Json.skipSpace, Cursor.skipWhile_rest, split]; rfl) ink

def readInside (close : Char) (a : α) (read : Cursor → Read α) (c : Cursor) : Read α :=
  if (skipSpace c).rest.head? = some close then .ok (a, (skipSpace c).advance 1)
  else read (skipSpace c)

theorem Keeps.inside (keeps : Keeps (fun _ => True) read) (close : Char) (a : α)
    (ink : isSpace close = false) (noQuote : close ≠ '"') :
    Keeps (fun _ => True) (readInside close a read) := by
  intro c c' d b found _ thins
  have head := thins.skipSpace_head
  rw [readInside] at found
  rw [readInside, head]
  split at found
  · rename_i closed
    cases found
    obtain ⟨s, mark⟩ := List.head?_eq_some_iff.1 closed
    obtain ⟨_, less, rest⟩ := thins.past mark ink noQuote
    exact ⟨(skipSpace c').advance 1, by rw [if_pos closed], rest, less⟩
  · rename_i other
    obtain ⟨d', found', rest, shorter⟩ := keeps found trivial thins.skipSpace
    exact ⟨d', by rw [if_neg other, found'], rest, Nat.lt_of_lt_of_le shorter (skipSpace_length c')⟩

theorem Keeps.bracketed {x : Char} {s : List Char} {c c' d : Cursor} {a : α}
    (keeps : Keeps (fun _ => True) read) (opens : c.rest = x :: s) (ink : isSpace x = false)
    (noQuote : x ≠ '"') (found : read (c.advance 1) = .ok (a, d)) (thins : Thins c.rest c'.rest) :
    ∃ t d', c'.rest = x :: t ∧ read (c'.advance 1) = .ok (a, d') ∧ Thins d.rest d'.rest ∧
      d'.rest.length < c'.rest.length := by
  rw [opens] at thins
  obtain ⟨t, opens', rest⟩ := thins.of_cons ink noQuote
  have inner : Thins (c.advance 1).rest (c'.advance 1).rest := by
    rwa [Cursor.advance, Cursor.advance, opens, opens']
  obtain ⟨d', found', ended, shorter⟩ := keeps found trivial inner
  refine ⟨t, d', opens', found', ended, ?_⟩
  rw [Cursor.advance, opens', List.drop_succ_cons, List.drop_zero] at shorter
  rw [opens', List.length_cons]
  exact Nat.lt_succ_of_lt shorter

end

section
variable {inner : Option (Cursor → Read Value)} {c d : Cursor} {v : Value}

theorem readOne_of_atom {x : Char} {s : List Char} (starts : c.rest = x :: s) (atom : inAtom x) :
    readOne inner c = readAtom c := by
  have first : ∀ {y t}, c.rest = y :: t → inAtom y := by
    intro y t opens
    rw [starts] at opens
    cases opens
    exact atom
  rw [readOne.eq_def]
  split
  · exact absurd (first ‹_›) (by decide)
  · exact absurd (first ‹_›) (by decide)
  · exact absurd (first ‹_›) (by decide)
  · rfl

theorem head_of_readAtom (read : readAtom c = .ok (v, d)) : ∃ x s, c.rest = x :: s ∧ inAtom x := by
  rw [readAtom] at read
  split at read
  · rename_i word v' found
    obtain ⟨listed, r, split⟩ := listed_of_find? found
    obtain ⟨nonempty, atoms⟩ := literals_inAtom listed
    cases word with
    | nil => exact absurd rfl nonempty
    | cons x word => exact ⟨x, word ++ r, split.symm, atoms x List.mem_cons_self⟩
  · obtain ⟨run, further⟩ := readNumber_runs read
    exact run.head further

theorem readOne_keeps (keeps : ∀ item ∈ inner, Keeps Ends item) : Keeps Ends (readOne inner) := by
  intro c c' d v read ends thins
  rw [readOne.eq_def] at read
  split at read
  · rename_i s opens
    cases found : readString c.pos (c.pos + 1) s with
    | error e =>
        rw [found] at read
        cases read
    | ok got =>
        rw [found] at read
        cases read
        obtain ⟨t, d', opens', found', rest, shorter⟩ := thins.quoted opens found
        refine ⟨d', ?_, rest, shorter⟩
        rw [readOne.eq_def, opens']
        simp only [found']
        rfl
  · rename_i s opens
    cases inner with
    | none => cases read
    | some item =>
        have items := (readItems_keeps (keeps item rfl)).map Value.array
        have list := items.inside ']' (.array []) rfl (by decide)
        obtain ⟨t, d', opens', found, rest, shorter⟩ := list.bracketed opens rfl (by decide) read thins
        refine ⟨d', ?_, rest, shorter⟩
        rw [readOne.eq_def, opens']
        exact found
  · rename_i s opens
    cases inner with
    | none => cases read
    | some item =>
        have members := (readMembers_keeps (keeps item rfl) []).map Value.object
        have list := members.inside '\x7d' (.object []) rfl (by decide)
        obtain ⟨t, d', opens', found, rest, shorter⟩ := list.bracketed opens rfl (by decide) read thins
        refine ⟨d', ?_, rest, shorter⟩
        rw [readOne.eq_def, opens']
        exact found
  · have atom : readAtom c = .ok (v, d) := read
    obtain ⟨x, s, starts, isAtom⟩ := head_of_readAtom atom
    obtain ⟨d', same, rest, shorter⟩ := readAtom_keeps atom ends thins
    rw [starts] at thins
    obtain ⟨t, starts', _⟩ := thins.of_cons (ink_of_atom isAtom).1 (ink_of_atom isAtom).2
    exact ⟨d', by rw [readOne_of_atom starts' isAtom, same], rest, shorter⟩

theorem readValue_keeps (levels : Nat) : Keeps Ends (readValue levels) := by
  induction levels with
  | zero =>
      change Keeps Ends (readOne none)
      exact readOne_keeps (by simp)
  | succ levels ih =>
      change Keeps Ends (readOne (some (readValue levels)))
      apply readOne_keeps
      intro item left
      cases left
      exact ih

theorem readOne_ne_mark (read : readOne inner c = .ok (v, d)) : c.rest.head? ≠ some '\uFEFF' := by
  rw [readOne.eq_def] at read
  split at read
  · simp [*]
  · simp [*]
  · simp [*]
  · have atom : readAtom c = .ok (v, d) := read
    obtain ⟨x, s, starts, isAtom⟩ := head_of_readAtom atom
    rw [starts]
    rintro same
    cases same
    cases isAtom

theorem readValue_ne_mark {levels : Nat} (read : readValue levels c = .ok (v, d)) :
    c.rest.head? ≠ some '\uFEFF' := by
  cases levels with
  | zero => exact readOne_ne_mark read
  | succ levels => exact readOne_ne_mark read

theorem ends_of_atEnd (ended : (skipSpace c).atEnd) : Ends c.rest := by
  rw [Cursor.atEnd, skipSpace, Cursor.skipWhile_rest, List.isEmpty_iff] at ended
  intro x head
  rw [ended] at head
  cases head

/-- A message that can be decoded has the same value without some spaces outside of its strings. -/
theorem decode_thins {levels : Nat} {s t : List Char} (thins : Thins s t)
    (decoded : decode levels s = .ok v) : decode levels t = .ok v := by
  have whole : Thins (Cursor.start s).rest (Cursor.start t).rest := thins
  have start := whole.skipSpace
  have head := whole.skipSpace_head
  rw [decode] at decoded
  split at decoded
  · cases decoded
  · cases read : readValue levels (skipSpace (.start s)) with
    | error e =>
        rw [read] at decoded
        cases decoded
    | ok got =>
        obtain ⟨w, e⟩ := got
        rw [read] at decoded
        simp only [Bind.bind, Except.bind] at decoded
        split at decoded
        · rename_i ended
          cases decoded
          obtain ⟨e', read', rest, _⟩ := readValue_keeps levels read (ends_of_atEnd ended) start
          have noMark : t.head? ≠ some '\uFEFF' := by
            intro mark
            obtain ⟨t', rfl⟩ := List.head?_eq_some_iff.1 mark
            exact readValue_ne_mark read head.symm
          have ended' : (skipSpace e').atEnd := by
            rw [Cursor.atEnd, List.isEmpty_iff] at ended ⊢
            have last := rest.skipSpace
            rw [ended] at last
            exact last.eq_nil
          rw [decode, if_neg noMark, read']
          simp only [Bind.bind, Except.bind]
          rw [if_pos ended']
        · cases decoded

end
end ChatPreview.Json
