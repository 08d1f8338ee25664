import ChatPreview.Proofs.Wrap.Basic
import ChatPreview.Proofs.Line.Commands

namespace ChatPreview
open Text Scan Token

def place (pieces : List Piece) (p : Nat) : Nat := (written (pieces.take p)).length

inductive Beside (pieces : List Piece) : Cursor → Cursor → Prop where
  | mk (done todo : List Piece) (split : pieces = done ++ todo) :
      Beside pieces ⟨done.length, plain todo⟩ ⟨(written done).length, written todo⟩

namespace Beside
variable {pieces : List Piece} {c d : Cursor}

theorem exists_between {done todo done' todo' : List Piece} (split : pieces = done ++ todo)
    (split' : pieces = done' ++ todo') (order : done.length ≤ done'.length) :
    ∃ between, done' = done ++ between ∧ todo = between ++ todo' := by
  rw [split] at split'
  rcases List.append_eq_append_iff.1 split' with ⟨u, first, last⟩ | ⟨u, first, last⟩
  · exact ⟨u, first, last⟩
  · have none : u = [] := by
      rw [first, List.length_append] at order
      exact List.length_eq_zero_iff.1 (by omega)
    rw [none, List.append_nil] at first
    rw [none, List.nil_append] at last
    exact ⟨[], by rw [first, List.append_nil], last.symm⟩

theorem pos (h : Beside pieces c d) : d.pos = place pieces c.pos := by
  rcases h with ⟨done, todo, rfl⟩
  rw [place, List.take_left]

theorem ordered (h : Beside pieces c d) {c' d' : Cursor} (h' : Beside pieces c' d')
    (further : c.pos < c'.pos) : d.pos < d'.pos := by
  rcases h with ⟨done, todo, split⟩
  rcases h' with ⟨done', todo', split'⟩
  rcases exists_between split split' (Nat.le_of_lt further) with ⟨between, rfl, _⟩
  have longer := length_le_written between
  simp only [List.length_append] at further
  simp only [written_append, List.length_append]
  omega

theorem span (wrapped : Wrapped pieces) (h : Beside pieces c d) {c' d' : Cursor}
    (h' : Beside pieces c' d') (ahead : c.Reaches c') :
    joinLines (c.upTo c') = joinLines (d.upTo d') := by
  have order := ahead.pos_le
  rcases h with ⟨done, todo, split⟩
  rcases h' with ⟨done', todo', split'⟩
  rcases exists_between split split' order with ⟨between, rfl, rfl⟩
  have inner : Wrapped between := (split ▸ wrapped).of_append.2.of_append.1
  have left : plain (between ++ todo') = plain between ++ plain todo' := plain_append _ _
  have length : (done ++ between).length - done.length = (plain between).length := by
    rw [List.length_append, plain, List.length_map]
    omega
  have length' : (written (done ++ between)).length - (written done).length =
      (written between).length := by
    rw [written_append, List.length_append]
    omega
  rw [Cursor.upTo, Cursor.upTo]
  simp only
  rw [length, length', left, written_append, List.take_left, List.take_left,
    joinLines_of_feed_not_mem (feed_not_mem_plain inner), joinLines_written inner]

theorem head (wrapped : Wrapped pieces) (h : Beside pieces c d) : (c.atLineEnd ∧ d.atLineEnd) ∨
    (¬c.atLineEnd ∧ ¬d.atLineEnd ∧ ∃ x s t, c.rest = x :: s ∧ d.rest = x :: t) := by
  rcases h with ⟨done, todo, split⟩
  have inner : Wrapped todo := (split ▸ wrapped).of_append.2
  have free := atNewline_plain inner
  have free' := atNewline_written inner
  cases todo with
  | nil => exact .inl ⟨rfl, rfl⟩
  | cons piece rest =>
      refine .inr ⟨?_, ?_, piece.char, plain rest, piece.after ++ written rest, rfl, rfl⟩
      · rw [Cursor.atLineEnd, free]
        exact Bool.false_ne_true
      · rw [Cursor.atLineEnd, free']
        exact Bool.false_ne_true

theorem next {done rest : List Piece} {piece : Piece} (split : pieces = done ++ piece :: rest) :
    Beside pieces ⟨done.length + 1, plain rest⟩
      ⟨(written done).length + (piece.after.length + 1), written rest⟩ := by
  have moved : Beside pieces _ _ := .mk (done ++ [piece]) rest (by simp [split])
  have length : (written (done ++ [piece])).length =
      (written done).length + (piece.after.length + 1) := by
    rw [written_append, List.length_append]
    simp [written]
  rwa [length, List.length_append] at moved

theorem step (wrapped : Wrapped pieces) (h : Beside pieces c d) {x : Char} {s : List Char}
    (split : c.rest = x :: s) (ink : isBlank x = false) :
    Beside pieces (c.advance 1) (d.advance 1) := by
  rcases h with ⟨done, todo, parts⟩
  cases todo with
  | nil => cases split
  | cons piece rest =>
      have first : piece.char = x := (List.cons.inj split).1
      have inner : Wrapped (piece :: rest) := (parts ▸ wrapped).of_append.2
      have bare := inner.after_of_ink (first ▸ ink)
      have moved := next parts
      rw [bare] at moved
      simpa [Cursor.advance, written_cons, plain, bare] using moved

theorem leave {done read rest : List Piece} (split : pieces = done ++ (read ++ rest)) :
    Beside pieces ((⟨done.length, plain (read ++ rest)⟩ : Cursor).leave (plain rest))
      ((⟨(written done).length, written (read ++ rest)⟩ : Cursor).leave (written rest)) := by
  have moved : Beside pieces _ _ := .mk (done ++ read) rest (by simp [split])
  have length : (plain (read ++ rest)).length - (plain rest).length = read.length := by
    simp [plain]
  have length' : (written (read ++ rest)).length - (written rest).length =
      (written read).length := by
    rw [written_append, List.length_append]
    omega
  rw [Cursor.leave, Cursor.leave]
  simp only
  rw [length, length']
  rwa [written_append, List.length_append, List.length_append] at moved

theorem skipSpace_stays {p : Nat} {s : List Char} (ink : s.dropWhile isBlank = s)
    (free : Continuation.rest? s = none) : skipSpace ⟨p, s⟩ = ⟨p, s⟩ := by
  cases s with
  | nil => exact skipSpace_atLineEnd rfl
  | cons x s =>
      apply skipSpace_of_head rfl
      · by_contra blank
        have shorter := congrArg List.length ink
        rw [List.dropWhile_cons_of_pos (by simpa using blank), List.length_cons] at shorter
        have := Continuation.length_dropWhile_le isBlank s
        omega
      · rw [Continuation.starts, free, Option.isSome_none]

theorem skipSpace_after {piece : Piece} {rest : List Piece} (wrapped : Wrapped (piece :: rest))
    (some' : piece.after ≠ []) (p : Nat) :
    skipSpace ⟨p, piece.after ++ written rest⟩ = ⟨p + piece.after.length, written rest⟩ := by
  have stays : (⟨p, piece.after ++ written rest⟩ : Cursor).skipWhile isBlank =
      ⟨p, piece.after ++ written rest⟩ := by
    rcases wrapped.2.1 with none | ⟨⟨trail, indent, split, _⟩, _⟩
    · exact absurd none some'
    · rw [split]
      rfl
  rw [skipSpace_eq, stays, rest?_after wrapped some']
  simp [Cursor.leave]

theorem dropWhile_plain {todo : List Piece} (ink : ∀ next ∈ todo.head?, isBlank next.char = false) :
    (plain todo).dropWhile isBlank = plain todo := by
  cases todo with
  | nil => rfl
  | cons piece rest =>
      have first : ¬isBlank piece.char := Bool.eq_false_iff.1 (ink piece rfl)
      rw [plain, List.map_cons, List.dropWhile_cons_of_neg first]

theorem skip_stays (wrapped : Wrapped pieces) {done todo : List Piece} {p q : Nat}
    (split : pieces = done ++ todo) (first : p = done.length) (second : q = (written done).length)
    (ink : ∀ next ∈ todo.head?, isBlank next.char = false) :
    Beside pieces (skipSpace ⟨p, plain todo⟩) (skipSpace ⟨q, written todo⟩) := by
  have inner : Wrapped todo := (split ▸ wrapped).of_append.2
  rw [skipSpace_stays (dropWhile_plain ink) (rest?_plain inner),
    skipSpace_stays (dropWhile_written ink) (rest?_written inner), first, second]
  exact .mk done todo split

theorem skip_from (wrapped : Wrapped pieces) {done todo : List Piece} {p q : Nat}
    (split : pieces = done ++ todo) (first : p = done.length) (second : q = (written done).length) :
    Beside pieces (skipSpace ⟨p, plain todo⟩) (skipSpace ⟨q, written todo⟩) := by
  induction todo generalizing done p q with
  | nil => exact skip_stays wrapped split first second (by simp)
  | cons piece rest ih =>
      by_cases blank : isBlank piece.char
      · have split' : pieces = (done ++ [piece]) ++ rest := by simp [split]
        have first' : p + 1 = (done ++ [piece]).length := by simp [first]
        have inner : Wrapped (piece :: rest) := (split ▸ wrapped).of_append.2
        rw [plain, List.map_cons, written_cons, skipSpace_blank blank, skipSpace_blank blank]
        by_cases bare : piece.after = []
        · rw [bare, List.nil_append]
          have second' : q + 1 = (written (done ++ [piece])).length := by
            simp [second, written, bare]
          exact ih split' first' second'
        · have second' : q + 1 + piece.after.length = (written (done ++ [piece])).length := by
            simp only [written_append, second, written_cons, List.length_append, List.length_cons]
            simp [written]
            omega
          have ink : ∀ next ∈ rest.head?, isBlank next.char = false := by
            rcases inner.2.1 with none | ⟨_, _, next⟩
            · exact absurd none bare
            · exact next
          have last := skip_stays wrapped split' first' second' ink
          rw [skipSpace_after inner bare]
          rwa [skipSpace_stays (dropWhile_written ink) (rest?_written inner.2.2)] at last
      · apply skip_stays wrapped split first second
        intro next member
        cases member
        exact Bool.eq_false_iff.2 blank

theorem skip (wrapped : Wrapped pieces) (h : Beside pieces c d) :
    Beside pieces (skipSpace c) (skipSpace d) := by
  rcases h with ⟨done, todo, split⟩
  exact skip_from wrapped split rfl rfl

theorem afterString?_after {quote : Char} {piece : Piece} {rest : List Piece}
    (wrapped : Wrapped (piece :: rest)) :
    afterString? quote (piece.after ++ written rest) = afterString? quote (written rest) := by
  by_cases bare : piece.after = []
  · rw [bare, List.nil_append]
  · exact afterString?_of_some (rest?_after wrapped bare)

/-- What is left of the line and of the text written, from one of its characters on. -/
def Tails (pieces : List Piece) (r r' : List Char) : Prop :=
  ∃ read rest, pieces = read ++ rest ∧ r = plain rest ∧ r' = written rest

theorem tails_append (read : List Piece) {todo : List Piece} {s t : Option (List Char)}
    (later : Option.Rel (Tails todo) s t) : Option.Rel (Tails (read ++ todo)) s t := by
  cases later with
  | none => exact .none
  | some found =>
      rcases found with ⟨more, rest, rfl, left, right⟩
      exact .some ⟨read ++ more, rest, (List.append_assoc _ _ _).symm, left, right⟩

theorem closes_nil (quote : Char) : Option.Rel (Tails []) (afterString? quote (plain []))
    (afterString? quote (written [])) := by
  rw [plain, List.map_nil, written, List.flatMap_nil, afterString?_nil]
  exact .none

theorem closes_cons {quote : Char} (opens : isQuote quote) {piece : Piece} {rest : List Piece}
    (wrapped : Wrapped (piece :: rest))
    (later : Option.Rel (Tails rest) (afterString? quote (plain rest))
      (afterString? quote (written rest)))
    (beyond : Option.Rel (Tails rest.tail) (afterString? quote (plain rest.tail))
      (afterString? quote (written rest.tail))) :
    Option.Rel (Tails (piece :: rest)) (afterString? quote (plain (piece :: rest)))
      (afterString? quote (written (piece :: rest))) := by
  have free := rest?_plain wrapped
  have free' := rest?_written wrapped
  have inside := Bool.eq_false_iff.1 (atNewline_plain wrapped)
  have inside' := Bool.eq_false_iff.1 (atNewline_written wrapped)
  rw [plain, List.map_cons, written_cons] at *
  rw [afterString?_cons free inside, afterString?_cons free' inside']
  by_cases backslash : piece.char = '\\'
  · have bare := wrapped.after_of_ink (by rw [backslash]; rfl)
    rw [if_pos backslash, if_pos backslash, bare, List.nil_append]
    cases rest with
    | nil => exact tails_append [piece] (closes_nil quote)
    | cons escaped rest =>
        rw [List.map_cons, written_cons, List.drop_one, List.drop_one, List.tail_cons,
          List.tail_cons, afterString?_after wrapped.2.2]
        exact tails_append [piece, escaped] beyond
  · rw [if_neg backslash, if_neg backslash]
    by_cases closed : piece.char = quote
    · have ink : isBlank piece.char = false := closed ▸ (solid_of_isQuote opens).not_blank
      rw [if_pos closed, if_pos closed, wrapped.after_of_ink ink]
      exact .some ⟨[piece], rest, rfl, rfl, rfl⟩
    · rw [if_neg closed, if_neg closed, afterString?_after wrapped]
      exact tails_append [piece] later

/-- A string closes at the same character of both texts, or at none. -/
theorem closes {quote : Char} (opens : isQuote quote) (todo : List Piece) (wrapped : Wrapped todo) :
    Option.Rel (Tails todo) (afterString? quote (plain todo))
        (afterString? quote (written todo)) ∧
      Option.Rel (Tails todo.tail) (afterString? quote (plain todo.tail))
        (afterString? quote (written todo.tail)) := by
  induction todo with
  | nil => exact ⟨closes_nil quote, closes_nil quote⟩
  | cons piece rest ih =>
      rcases ih wrapped.2.2 with ⟨later, beyond⟩
      exact ⟨closes_cons opens wrapped later beyond, later⟩

theorem close (wrapped : Wrapped pieces) (h : Beside pieces c d) {quote : Char} {s t : List Char}
    (split : c.rest = quote :: s) (split' : d.rest = quote :: t) (opens : isQuote quote) :
    Option.Rel (fun r r' => Beside pieces (c.leave r) (d.leave r')) (afterString? quote s)
      (afterString? quote t) := by
  rcases h with ⟨done, todo, parts⟩
  have inner : Wrapped todo := (parts ▸ wrapped).of_append.2
  cases todo with
  | nil => cases split
  | cons piece rest =>
      cases split
      have bare := inner.after_of_ink (solid_of_isQuote opens).not_blank
      have tail : t = written rest := by
        rw [written_cons, bare] at split'
        exact (List.cons.inj split').2.symm
      have closed := (closes opens rest inner.2.2).1
      rw [tail]
      generalize afterString? piece.char (written rest) = s' at closed
      change Option.Rel _ (afterString? piece.char (plain rest)) s'
      generalize afterString? piece.char (plain rest) = s at closed
      cases closed with
      | none => exact .none
      | some found =>
          rcases found with ⟨read, rest', rfl, rfl, rfl⟩
          have split : pieces = done ++ ((piece :: read) ++ rest') := parts
          exact .some (leave split)

/-- Continuations between words change nothing about how nodes are read. -/
theorem alignment (wrapped : Wrapped pieces) : Alignment (place pieces) (Beside pieces) where
  pos h := h.pos
  ordered h h' further := h.ordered h' further
  head h := h.head wrapped
  starts h := by
    rcases h with ⟨done, todo, split⟩
    have inner : Wrapped todo := (split ▸ wrapped).of_append.2
    rw [Continuation.starts, Continuation.starts, rest?_plain inner, rest?_written inner]
  step h split ink _ _ := h.step wrapped split ink
  skip h := h.skip wrapped
  close h split split' opens := h.close wrapped split split' opens
  span h h' ahead _ := h.span wrapped h' ahead

theorem skipLine (wrapped : Wrapped pieces) (h : Beside pieces c d) :
    (Command.skipLine c).rest = [] ∧ (Command.skipLine d).rest = [] := by
  have last {e : Cursor} (joined : Joined e.rest) : (Command.skipLine e).rest = [] :=
    (Before.alone joined).skipLine.2
  rcases h with ⟨done, todo, split⟩
  have inner : Wrapped todo := (split ▸ wrapped).of_append.2
  exact ⟨last (joined_of_feed_not_mem (feed_not_mem_plain inner)), last (joined_written inner)⟩

end Beside

/-- A line and the places in it where continuations are written: after the first word, each
between a blank and what is none. -/
structure Wraps (pieces : List Piece) : Prop where
  line : ∀ piece ∈ pieces, piece.char ≠ '\n' ∧ piece.char ≠ '\r'
  code : ∃ x, ((plain pieces).dropWhile isBlank).head? = some x ∧ x ≠ '#'
  placed : ∀ done piece rest, pieces = done ++ piece :: rest → piece.after ≠ [] →
    IsContinuation piece.after ∧ isBlank piece.char ∧
      (∃ earlier ∈ done, isBlank earlier.char = false) ∧
      ∀ next ∈ rest.head?, isBlank next.char = false

namespace Wraps
variable {pieces : List Piece}

theorem wrapped (wraps : Wraps pieces) : Wrapped pieces := by
  have from' (done rest : List Piece) (split : pieces = done ++ rest) : Wrapped rest := by
    induction rest generalizing done with
    | nil => trivial
    | cons piece rest ih =>
        refine ⟨wraps.line piece (by simp [split]), ?_, ih (done ++ [piece]) (by simp [split])⟩
        by_cases bare : piece.after = []
        · exact .inl bare
        · rcases wraps.placed done piece rest split bare with ⟨continuation, blank, _, next⟩
          exact .inr ⟨continuation, blank, next⟩
  exact from' [] pieces rfl

theorem exists_first (wraps : Wraps pieces) : ∃ lead piece rest, pieces = lead ++ piece :: rest ∧
    written lead = plain lead ∧ (∀ x ∈ plain lead, isBlank x) ∧ isBlank piece.char = false ∧
      piece.char ≠ '#' := by
  rcases wraps.code with ⟨x, first, code⟩
  have split := List.takeWhile_append_dropWhile (p := fun q : Piece => isBlank q.char) (l := pieces)
  have blank : ∀ q ∈ pieces.takeWhile fun q => isBlank q.char, isBlank q.char :=
    fun q => List.mem_takeWhile_imp
  have ink := List.head?_dropWhile_not (fun q : Piece => isBlank q.char) pieces
  rw [plain, List.dropWhile_map, List.head?_map] at first
  change (pieces.dropWhile fun q => isBlank q.char).head?.map _ = _ at first
  generalize pieces.takeWhile (fun q => isBlank q.char) = lead at split blank
  cases tail : pieces.dropWhile fun q => isBlank q.char with
  | nil =>
      rw [tail] at first
      cases first
  | cons piece rest =>
      rw [tail] at first split ink
      cases first
      refine ⟨lead, piece, rest, split.symm, ?_, ?_, by simpa using ink, code⟩
      · apply written_of_bare
        intro q member
        by_contra written
        rcases List.append_of_mem member with ⟨before, behind, rfl⟩
        have parts : pieces = before ++ q :: (behind ++ piece :: rest) := by simp [← split]
        rcases (wraps.placed before q _ parts written).2.2.1 with ⟨earlier, among, inked⟩
        have := blank earlier (List.mem_append_left _ among)
        rw [inked] at this
        cases this
      · intro y member
        rcases List.mem_map.1 member with ⟨q, among, rfl⟩
        exact blank q among

end Wraps

namespace Command
variable {pieces : List Piece} {c d : Cursor}

theorem pastDollar_beside (wrapped : Wrapped pieces) (h : Beside pieces c d) :
    Beside pieces (pastDollar c) (pastDollar d) ∧
      (d.rest.head? = some '$' ↔ c.rest.head? = some '$') := by
  have mark := (Beside.alignment wrapped).head? (x := '$') (by decide) h
  refine ⟨?_, mark.symm⟩
  rw [pastDollar, pastDollar]
  by_cases dollar : c.rest.head? = some '$'
  · rw [if_pos dollar, if_pos (mark.1 dollar)]
    rcases List.head?_eq_some_iff.1 dollar with ⟨s, split⟩
    exact h.step wrapped split rfl
  · rw [if_neg dollar, if_neg (mt mark.2 dollar)]
    exact h

theorem readLine_beside (limit : Int) (wrapped : Wrapped pieces) (h : Beside pieces c d) :
    (readLine limit d).1.isMacro = (readLine limit c).1.isMacro ∧
      (readLine limit d).1.nodes = (readLine limit c).1.nodes.map (·.relocate (place pieces)) ∧
      Displaced (place pieces) (c.pos + c.rest.length) (readLine limit c).1.error
        (readLine limit d).1.error := by
  rcases pastDollar_beside wrapped h with ⟨after, mark⟩
  have agree := (Beside.alignment wrapped).readNodes_agree
    (E := fun c d => c.rest = [] ∧ d.rest = []) (fun h => h.skipLine wrapped) limit after
  rw [← (reaches_pastDollar c).length_add] at agree
  exact ⟨by simp [readLine, mark], agree.1, agree.2.1⟩

end Command

/-- Continuations between the words of a command change nothing but offsets: the command has the
same nodes, and an error only where, and as, the command on one line has it. -/
theorem commandsWithin_written (limit : Int) (pieces : List Piece) (wraps : Wraps pieces) :
    ∃ c d, commandsWithin limit (plain pieces) = [c] ∧
      commandsWithin limit (written pieces) = [d] ∧ d.isMacro = c.isMacro ∧
      d.nodes = c.nodes.map (·.relocate (place pieces)) ∧
      Displaced (place pieces) pieces.length c.error d.error := by
  have wrapped := wraps.wrapped
  rcases wraps.exists_first with ⟨lead, piece, rest, split, bare, blank, ink, code⟩
  have line : plain pieces = plain lead ++ piece.char :: plain rest := by rw [split, plain_append]; rfl
  have text : written pieces = plain lead ++ piece.char :: (piece.after ++ written rest) := by
    rw [split, written_append, bare]
    rfl
  have first : Beside pieces ⟨(plain lead).length, plain (piece :: rest)⟩
      ⟨(plain lead).length, written (piece :: rest)⟩ := by
    have moved := Beside.mk lead (piece :: rest) split
    rwa [bare, ← List.length_map (f := Piece.char)] at moved
  have read := Command.readLine_beside limit wrapped first
  have length : (plain lead).length + (plain (piece :: rest)).length = pieces.length := by
    rw [← List.length_append, ← plain_append, ← split, plain, List.length_map]
  simp only at read
  rw [length] at read
  have one {s : List Char} (joined : Joined (plain lead ++ piece.char :: s)) :=
    commandsWithin_of_joined limit blank ink code joined
  refine ⟨_, _, ?_, ?_, read⟩
  · rw [line]
    exact one (line ▸ joined_of_feed_not_mem (feed_not_mem_plain wrapped))
  · rw [text]
    exact one (text ▸ joined_written wrapped)

def wrappedBracket : List Piece := [⟨'a', []⟩, ⟨' ', ['\\', ' ', '\n', ' ']⟩, ⟨']', []⟩]

theorem commandsWithin_written_bracket : Wraps wrappedBracket ∧
    ∃ c d, commandsWithin nestingLimit ['a', ' ', ']'] = [c] ∧
      commandsWithin nestingLimit ['a', ' ', '\\', ' ', '\n', ' ', ']'] = [d] ∧
      d.isMacro = c.isMacro ∧ d.nodes = c.nodes.map (·.relocate (place wrappedBracket)) ∧
      Displaced (place wrappedBracket) 3 c.error d.error := by
  have continuation : IsContinuation ['\\', ' ', '\n', ' '] :=
    ⟨[' '], [' '], rfl, ⟨[' '], [], rfl, by simp [isBlank], .inl rfl⟩, by simp [isBlank]⟩
  have wraps : Wraps wrappedBracket := by
    constructor
    · simp [wrappedBracket]
    · exact ⟨'a', rfl, by decide⟩
    · intro done piece rest split after
      rcases done with _ | ⟨first, _ | ⟨second, _ | ⟨third, done⟩⟩⟩
      · cases split
        exact absurd rfl after
      · cases split
        exact ⟨continuation, rfl, ⟨_, List.mem_singleton_self _, rfl⟩, by simp [isBlank]⟩
      · cases split
        exact absurd rfl after
      · simp [wrappedBracket] at split
  exact ⟨wraps, commandsWithin_written nestingLimit wrappedBracket wraps⟩

end ChatPreview
