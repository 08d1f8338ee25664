import ChatPreview.Proofs.Line.Commands
import ChatPreview.Proofs.Returns.Text
/-!
Commands in a source whose lines end in a carriage return and a line feed: they are those of the
source with line feeds alone, at the places that go together.
-/
namespace ChatPreview
open Text Scan Token

/-! ## Cursors -/

/-- Cursors at one place of a source, the second with carriage returns in what is ahead. -/
def Returned (source : List Char) (c d : Cursor) : Prop :=
  ∃ before, source = before ++ c.rest ∧ c.pos = before.length ∧
    d = ⟨(withReturns before).length, withReturns c.rest⟩

namespace Returned
variable {source read s r : List Char} {c c' d d' : Cursor}

theorem rest (h : Returned source c d) : d.rest = withReturns c.rest := by
  rcases h with ⟨before, _, _, rfl⟩
  rfl

theorem pos (h : Returned source c d) : d.pos = placeIn source c.pos := by
  rcases h with ⟨before, split, pos, rfl⟩
  rw [split, pos, placeIn_length]

theorem pos_le (h : Returned source c d) : c.pos ≤ source.length := by
  rcases h with ⟨before, split, pos, _⟩
  rw [split, pos, List.length_append]
  exact Nat.le_add_right _ _

theorem noReturn (h : Returned source c d) (noReturn : '\r' ∉ source) : '\r' ∉ c.rest := by
  rcases h with ⟨before, split, _⟩
  exact noReturn_of_suffix noReturn ⟨before, split.symm⟩

theorem reach (h : Returned source c d) (ahead : c.Reaches c') (ahead' : d.Reaches d')
    (rest : d'.rest = withReturns c'.rest) : Returned source c' d' := by
  rcases h with ⟨before, split, pos, rfl⟩
  rcases ahead with ⟨read, first, pos'⟩
  have total : (withReturns before).length + (withReturns c.rest).length =
      d'.pos + d'.rest.length := ahead'.length_add
  refine ⟨before ++ read, ?_, ?_, ?_⟩
  · rw [split, first, List.append_assoc]
  · rw [pos', pos, List.length_append]
  · rw [rest, first, withReturns_append, List.length_append] at total
    have pos : d'.pos = (withReturns (before ++ read)).length := by
      rw [withReturns_append, List.length_append]
      omega
    cases d'
    cases rest
    cases pos
    rfl

theorem placeIn_add (h : Returned source c d) (split : c.rest = read ++ s) :
    placeIn source (c.pos + read.length) = d.pos + (withReturns read).length := by
  rcases h with ⟨before, whole, pos, rfl⟩
  rw [split, ← List.append_assoc] at whole
  rw [whole, pos, ← List.length_append, placeIn_length, withReturns_append, List.length_append]

theorem upTo (h : Returned source c d) (h' : Returned source c' d') (ahead : c.Reaches c')
    (ahead' : d.Reaches d') : d.upTo d' = withReturns (c.upTo c') := by
  apply ahead'.upTo_eq
  rw [h.rest, h'.rest, ← withReturns_append, ahead.upTo_append]

theorem leave (h : Returned source c d) (part : r <:+ c.rest) :
    Returned source (c.leave r) (d.leave (withReturns r)) := by
  have part' : withReturns r <:+ d.rest := by
    rcases part with ⟨read, split⟩
    exact ⟨withReturns read, by rw [h.rest, ← split, withReturns_append]⟩
  exact h.reach (c.reaches_leave part) (d.reaches_leave part') rfl

theorem blanks (h : Returned source c d) :
    Returned source (c.skipWhile Text.isBlank) (d.skipWhile Text.isBlank) := by
  apply h.reach (c.reaches_skipWhile _) (d.reaches_skipWhile _)
  rw [Cursor.skipWhile_rest, Cursor.skipWhile_rest, h.rest, dropWhile_withReturns rfl]

theorem advance (h : Returned source c d) {x : Char} (split : c.rest = x :: s) (feed : x ≠ '\n') :
    Returned source (c.advance 1) (d.advance 1) := by
  have split' : d.rest = x :: withReturns s := by rw [h.rest, split, withReturns_cons feed]
  apply h.reach (c.reaches_advance (by simp [split])) (d.reaches_advance (by simp [split']))
  rw [Cursor.advance, Cursor.advance, split, split']
  rfl

theorem atLineEnd (h : Returned source c d) (noReturn : '\r' ∉ source) :
    d.atLineEnd = c.atLineEnd := by
  rw [Cursor.atLineEnd, Cursor.atLineEnd, Cursor.atEnd, Cursor.atEnd, h.rest, isEmpty_withReturns,
    atNewline_withReturns (h.noReturn noReturn)]

theorem head? (h : Returned source c d) {x : Char} (solid : Solid x) :
    d.rest.head? = some x ↔ c.rest.head? = some x := by
  rw [h.rest]
  exact head?_withReturns solid.ne_feed solid.ne_return c.rest

theorem skip (h : Returned source c d) (noReturn : '\r' ∉ source) :
    Returned source (skipSpace c) (skipSpace d) := by
  have blanks := h.blanks
  rw [skipSpace_eq, skipSpace_eq, blanks.rest, rest?_withReturns (blanks.noReturn noReturn)]
  cases found : Continuation.rest? (c.skipWhile isBlank).rest with
  | none => exact blanks
  | some r => exact blanks.leave (Continuation.rest?_suffix found)

theorem feed_of_inside (inside : ¬c.atLineEnd) {x : Char} (split : c.rest = x :: s) : x ≠ '\n' := by
  rintro rfl
  exact inside (atLineEnd_iff.2 (.inr ⟨s, .inl split⟩))

theorem skipLine (h : Returned source c d) (noReturn : '\r' ∉ source) :
    Returned source (Command.skipLine c) (Command.skipLine d) := by
  fun_induction Command.skipLine c generalizing d with
  | case1 c r found ih =>
      have found' : Continuation.rest? d.rest = some (withReturns r) := by
        rw [h.rest, rest?_withReturns (h.noReturn noReturn), found, Option.map_some]
      rw [Command.skipLine_of_some found']
      exact ih (h.leave (Continuation.rest?_suffix found))
  | case2 c free ended =>
      rwa [Command.skipLine_atLineEnd (h.atLineEnd noReturn ▸ ended)]
  | case3 c free inside ih =>
      have free' : Continuation.rest? d.rest = none := by
        rw [h.rest, rest?_withReturns (h.noReturn noReturn), free, Option.map_none]
      have inside' : ¬d.atLineEnd := by rwa [h.atLineEnd noReturn]
      rw [Command.skipLine_of_none free' inside']
      cases split : c.rest with
      | nil => exact absurd (atLineEnd_iff.2 (.inl split)) inside
      | cons x s => exact ih (h.advance split (feed_of_inside inside split))

theorem pastNewline (h : Returned source c d) (noReturn : '\r' ∉ source) :
    Returned source (Command.pastNewline c) (Command.pastNewline d) := by
  rw [Command.pastNewline, Command.pastNewline, h.rest,
    afterNewline?_withReturns (h.noReturn noReturn)]
  cases found : afterNewline? c.rest with
  | none => exact h
  | some r => exact h.leave (Continuation.afterNewline?_suffix found)

end Returned

/-! ## Lines -/

def ReturnedIn (source tail : List Char) (c d : Cursor) : Prop :=
  Returned source c d ∧ ∃ alone, Before tail alone c

theorem Before.reaches {tail : List Char} {alone alone' c c' : Cursor} (h : Before tail alone c)
    (h' : Before tail alone' c') (ahead : c.Reaches c') : alone.Reaches alone' := by
  rcases ahead with ⟨read, split, pos⟩
  rw [h.rest, h'.rest, ← List.append_assoc] at split
  exact ⟨read, List.append_cancel_right split, by rw [← h'.pos, pos, h.pos]⟩

theorem placeIn_lt {source : List Char} {p q : Nat} (lt : p < q) (le : q ≤ source.length) :
    placeIn source p < placeIn source q := by
  have split := List.take_append_drop p (source.take q)
  rw [List.take_take, Nat.min_eq_left (Nat.le_of_lt lt)] at split
  rw [placeIn, placeIn, ← split, withReturns_append, List.length_append]
  have more : 0 < ((source.take q).drop p).length := by
    rw [List.length_drop, List.length_take]
    omega
  have some := isEmpty_withReturns ((source.take q).drop p)
  rw [List.isEmpty_eq_false_iff.2 (List.length_pos_iff.1 more), List.isEmpty_eq_false_iff] at some
  exact Nat.lt_add_of_pos_right (List.length_pos_iff.2 some)

namespace ReturnedIn
variable {source tail : List Char} {c c' d d' : Cursor}

theorem head (h : ReturnedIn source tail c d) (noReturn : '\r' ∉ source) :
    (c.atLineEnd ∧ d.atLineEnd) ∨
      (¬c.atLineEnd ∧ ¬d.atLineEnd ∧ ∃ x s t, c.rest = x :: s ∧ d.rest = x :: t) := by
  have same := h.1.atLineEnd noReturn
  by_cases ended : c.atLineEnd
  · exact .inl ⟨ended, same ▸ ended⟩
  · cases split : c.rest with
    | nil => exact absurd (atLineEnd_iff.2 (.inl split)) ended
    | cons x s =>
        have feed := Returned.feed_of_inside ended split
        exact .inr ⟨ended, same ▸ ended, x, s, withReturns s, rfl, by
          rw [h.1.rest, split, withReturns_cons feed]⟩

theorem step (h : ReturnedIn source tail c d) {x : Char} {s : List Char} (split : c.rest = x :: s)
    (inside : ¬c.atLineEnd) (free : Continuation.starts c.rest = false) :
    ReturnedIn source tail (c.advance 1) (d.advance 1) := by
  rcases h with ⟨returned, alone, before⟩
  refine ⟨returned.advance split (Returned.feed_of_inside inside split), alone.advance 1, ?_⟩
  have starts := (Before.alignment tail).starts before
  rcases before.head with ⟨_, ended⟩ | ⟨_, _, y, t, u, first, _⟩
  · exact absurd ended inside
  · exact before.step first (starts.trans free)

theorem close (h : ReturnedIn source tail c d) (noReturn : '\r' ∉ source) {quote : Char}
    {s t : List Char} (split : c.rest = quote :: s) (split' : d.rest = quote :: t)
    (opens : isQuote quote) :
    Option.Rel (fun r r' => ReturnedIn source tail (c.leave r) (d.leave r')) (afterString? quote s)
      (afterString? quote t) := by
  rcases h with ⟨returned, alone, before⟩
  have solid := solid_of_isQuote opens
  have feed := solid.ne_feed
  have free : '\r' ∉ s := noReturn_of_cons (split ▸ returned.noReturn noReturn)
  have same : t = withReturns s := by
    have whole := returned.rest
    rw [split, split', withReturns_cons feed] at whole
    exact (List.cons.inj whole).2
  rcases List.head?_eq_some_iff.1 (((Before.alignment tail).head? solid before).2
    (by rw [split]; rfl)) with ⟨u, first⟩
  have closes := before.close first split opens
  rw [same, afterString?_withReturns quote free]
  generalize afterString? quote u = o at closes
  cases closed : afterString? quote s with
  | none => exact .none
  | some r =>
      rw [closed] at closes
      cases closes with
      | some after =>
          have part : r <:+ c.rest :=
            split ▸ (afterString?_suffix closed).trans (List.suffix_cons quote s)
          exact .some ⟨returned.leave part, _, after⟩

theorem span (h : ReturnedIn source tail c d) (h' : ReturnedIn source tail c' d')
    (noReturn : '\r' ∉ source) (ahead : c.Reaches c') (ahead' : d.Reaches d') :
    joinLines (c.upTo c') = joinLines (d.upTo d') := by
  rcases h with ⟨returned, alone, before⟩
  rcases h' with ⟨returned', alone', before'⟩
  have onward := before.reaches before' ahead
  have text := before.span before' onward ahead
  have joined : Joined (alone.upTo alone') :=
    (onward.upTo_append.symm ▸ before.joined).of_append_left
  rw [text] at joined
  have free : '\r' ∉ c.upTo c' := fun member =>
    returned.noReturn noReturn (ahead.upTo_append ▸ List.mem_append_left _ member)
  rw [returned.upTo returned' ahead ahead', joinLines_withReturns free,
    withReturns_of_feed_not_mem (Message.feed_not_mem_joinLines joined)]

end ReturnedIn

/-- Carriage returns before the line feeds change nothing about how nodes are read. -/
theorem returned_alignment {source : List Char} (noReturn : '\r' ∉ source) (tail : List Char) :
    Alignment (placeIn source) (ReturnedIn source tail) where
  pos h := h.1.pos
  ordered h h' further := by
    rw [h.1.pos, h'.1.pos]
    exact placeIn_lt further h'.1.pos_le
  head h := h.head noReturn
  starts h := by rw [h.1.rest, starts_withReturns (h.1.noReturn noReturn)]
  step h split _ inside free := h.step split inside free
  skip h := by
    rcases h with ⟨returned, alone, before⟩
    exact ⟨returned.skip noReturn, _, before.skip⟩
  close h split split' opens := h.close noReturn split split' opens
  span h h' ahead ahead' := h.span h' noReturn ahead ahead'

/-! ## Commands -/

def Failure.returned (source : List Char) (e : Failure) : Failure :=
  { e with offset := placeIn source e.offset.toNat }

def Command.returned (source : List Char) (c : Command) : Command :=
  { c with raw := withReturns c.raw, nodes := c.nodes.map (·.relocate (placeIn source)),
           start := placeIn source c.start, position := placeIn source c.position,
           stop := placeIn source c.stop, error := c.error.map (·.returned source) }

namespace Command
variable {source tail : List Char} {c d : Cursor}

theorem pastDollar_returned (h : ReturnedIn source tail c d) :
    ReturnedIn source tail (pastDollar c) (pastDollar d) := by
  rw [pastDollar, pastDollar]
  by_cases dollar : c.rest.head? = some '$'
  · rw [if_pos dollar, if_pos ((h.1.head? (by decide)).2 dollar)]
    rcases List.head?_eq_some_iff.1 dollar with ⟨s, split⟩
    have inside : ¬c.atLineEnd := fun ended => head_ne_of_atLineEnd ended (by decide) dollar
    exact h.step split inside (split ▸ starts_of_solid (by decide))
  · rw [if_neg dollar, if_neg (mt (h.1.head? (by decide)).1 dollar)]
    exact h

theorem trim_returned {next next' : Cursor} (h : Returned source c d)
    (last : Returned source next next') (ahead : c.Reaches next) (ahead' : d.Reaches next') :
    trim (d.upTo next') = withReturns (trim (c.upTo next)) ∧
      d.pos + ((d.upTo next').takeWhile isSpace).length =
        placeIn source (c.pos + ((c.upTo next).takeWhile isSpace).length) ∧
      d.pos + ((d.upTo next').takeWhile isSpace).length + (trim (d.upTo next')).length =
        placeIn source (c.pos + ((c.upTo next).takeWhile isSpace).length +
          (trim (c.upTo next)).length) := by
  rw [h.upTo last ahead ahead', trim_withReturns, takeWhile_withReturns rfl]
  rcases trim_split (c.upTo next) with ⟨trail, split, _⟩
  have whole : c.rest = ((c.upTo next).takeWhile isSpace ++ trim (c.upTo next)) ++
      (trail ++ next.rest) := by
    rw [← List.append_assoc, ← split, ahead.upTo_append]
  refine ⟨rfl, ?_, ?_⟩
  · rw [List.append_assoc] at whole
    exact (h.placeIn_add whole).symm
  · rw [Nat.add_assoc, Nat.add_assoc, ← List.length_append, ← List.length_append,
      ← withReturns_append]
    exact (h.placeIn_add whole).symm

theorem readLine_returned (limit : Int) (noReturn : '\r' ∉ source)
    (h : ReturnedIn source tail c d) :
    (readLine limit d).1 = (readLine limit c).1.returned source ∧
      Returned source (readLine limit c).2 (readLine limit d).2 := by
  have agree := (returned_alignment noReturn tail).readNodes_agree (E := Returned source)
    (fun related => related.1.skipLine noReturn) limit (pastDollar_returned h)
  rcases agree with ⟨nodes, error, last⟩
  have ahead := (reaches_pastDollar c).trans (readNodes_spec limit (pastDollar c)).1
  have ahead' := (reaches_pastDollar d).trans (readNodes_spec limit (pastDollar d)).1
  rcases trim_returned h.1 last ahead ahead' with ⟨raw, position, stop⟩
  have failure : (readNodes limit (pastDollar d)).error =
      (readNodes limit (pastDollar c)).error.map (·.returned source) := by
    generalize (readNodes limit (pastDollar c)).error = e at error
    generalize (readNodes limit (pastDollar d)).error = e' at error
    cases error <;> rfl
  refine ⟨?_, last.pastNewline noReturn⟩
  simp only [readLine, Command.returned, nodes, failure, h.1.head? (show Solid '$' by decide)]
  by_cases empty : (trim (c.upTo (readNodes limit (pastDollar c)).next)).isEmpty
  · have none := List.isEmpty_iff.1 empty
    have none' : trim (d.upTo (readNodes limit (pastDollar d)).next) = [] := by
      rw [raw, none]
      rfl
    simp [none, none', h.1.pos, withReturns_nil]
  · have empty' : ¬(trim (d.upTo (readNodes limit (pastDollar d)).next)).isEmpty := by
      rwa [raw, isEmpty_withReturns]
    rw [if_neg empty, if_neg empty', stop, position, raw, h.1.pos]

theorem feed_or_end (s : List Char) : ∃ t u, s = t ++ u ∧ '\n' ∉ t ∧
    (u = [] ∨ ∃ after, u = '\n' :: after) := by
  by_cases feed : '\n' ∈ s
  · rcases List.eq_append_cons_of_mem feed with ⟨t, after, split, noFeed⟩
    exact ⟨t, '\n' :: after, split, noFeed, .inr ⟨after, rfl⟩⟩
  · exact ⟨s, [], (List.append_nil s).symm, feed, .inl rfl⟩

theorem pastNewline_return (p : Nat) (s : List Char) :
    pastNewline ⟨p, '\r' :: '\n' :: s⟩ = pastNewline ⟨p + 1, '\n' :: s⟩ := by
  have two : s.length + 1 + 1 - s.length = 2 := by omega
  simp [pastNewline, afterNewline?, Cursor.leave, two, Nat.add_assoc]

theorem ofComment_returned {t after : List Char} (h : Returned source c d)
    (split : c.rest = t ++ after) (noFeed : '\n' ∉ t) :
    ofComment d.pos t = (ofComment c.pos t).returned source := by
  have stop := h.placeIn_add split
  rw [withReturns_of_feed_not_mem noFeed, h.pos] at stop
  simp only [ofComment, Command.returned, withReturns_of_feed_not_mem noFeed, h.pos, stop,
    List.map_cons, List.map_nil, Node.relocate, Node.relocateAll, Option.map_none]

theorem readComment_returned (noReturn : '\r' ∉ source) (h : Returned source c d) :
    (readComment d).1 = (readComment c).1.returned source ∧
      Returned source (readComment c).2 (readComment d).2 := by
  rcases feed_or_end c.rest with ⟨t, s, split, noFeed, ends⟩
  have text : dropEndWhile (· == '\r') t = t := by
    apply List.rdropWhile_eq_self_iff.2
    intro some last
    rw [beq_iff_eq] at last
    have member : '\r' ∈ t := last ▸ List.getLast_mem some
    exact h.noReturn noReturn (split ▸ List.mem_append_left s member)
  have split' : d.rest = t ++ withReturns s := by
    rw [h.rest, split, withReturns_append, withReturns_of_feed_not_mem noFeed]
  have line : Returned source ⟨c.pos + t.length, s⟩ ⟨d.pos + t.length, withReturns s⟩ :=
    h.reach ⟨t, split, rfl⟩ ⟨t, split', rfl⟩ rfl
  have read : readComment c = (ofComment c.pos t, Command.pastNewline ⟨c.pos + t.length, s⟩) := by
    have alone := readComment_append noFeed ends c.pos
    rwa [← split, text] at alone
  have read' : readComment d =
      (ofComment d.pos t, Command.pastNewline ⟨d.pos + t.length, withReturns s⟩) := by
    rcases ends with rfl | ⟨after, rfl⟩
    · have alone := readComment_append noFeed (.inl withReturns_nil) d.pos
      rwa [← split', text] at alone
    · -- the carriage return is read with the comment, and left out of its text
      have noFeed' : '\n' ∉ t ++ ['\r'] := by simp [noFeed]
      have alone := readComment_append noFeed' (.inr ⟨withReturns after, rfl⟩) d.pos
      rw [withReturns_feed] at split' ⊢
      rw [List.append_assoc, List.singleton_append, ← split', dropEndWhile_concat,
        if_pos (beq_self_eq_true '\r'), text, List.length_append, ← Nat.add_assoc] at alone
      exact alone.trans (congrArg _ (pastNewline_return _ _).symm)
  rw [read, read']
  exact ⟨ofComment_returned h split noFeed, line.pastNewline noReturn⟩

theorem read_returned (limit : Int) (noReturn : '\r' ∉ source) (h : Returned source c d)
    (line : IsComment c.rest ∨ ∃ tail alone, Before tail alone c) :
    (read limit d).1 = (read limit c).1.returned source ∧
      Returned source (read limit c).2 (read limit d).2 := by
  have mark := h.blanks.head? (x := '#') (by decide)
  rw [read, read]
  by_cases hash : (c.skipWhile Text.isBlank).rest.head? = some '#'
  · rw [if_pos hash, if_pos (mark.2 hash)]
    exact readComment_returned noReturn h.blanks
  · rw [if_neg hash, if_neg (mt mark.1 hash)]
    rcases line with comment | ⟨tail, alone, before⟩
    · rw [IsComment, ← Cursor.skipWhile_rest] at comment
      exact absurd comment hash
    · exact readLine_returned limit noReturn ⟨h.blanks, _, before.blanks⟩

end Command

section
variable {limit : Int} {source s : List Char} {c d : Cursor}

theorem commandsFrom_returned_nil (h : Returned source c d) (none : c.rest = []) :
    commandsFrom limit d = (commandsFrom limit c).map (·.returned source) := by
  have none' : d.rest = [] := by rw [h.rest, none, withReturns_nil]
  rw [commandsFrom, commandsFrom, dif_pos none, dif_pos none']
  rfl

theorem commandsFrom_cons (inside : c.rest ≠ []) : commandsFrom limit c =
    (Command.read limit c).1 :: commandsFrom limit (Command.read limit c).2 :=
  commandsFrom_of_read inside rfl

theorem commandsFrom_returned_cons (noReturn : '\r' ∉ source) (h : Returned source c d)
    (inside : c.rest ≠ []) (line : IsComment c.rest ∨ ∃ tail alone, Before tail alone c)
    (rest : ∀ {e : Cursor}, Returned source (Command.read limit c).2 e → commandsFrom limit e =
      (commandsFrom limit (Command.read limit c).2).map (·.returned source)) :
    commandsFrom limit d = (commandsFrom limit c).map (·.returned source) := by
  have inside' : d.rest ≠ [] := by
    rw [← List.isEmpty_eq_false_iff] at inside ⊢
    rwa [h.rest, isEmpty_withReturns]
  have read := Command.read_returned limit noReturn h line
  rw [commandsFrom_cons inside, commandsFrom_cons inside', List.map_cons, read.1, rest read.2]

/-- The commands of the two sources go together, line by line. -/
theorem commandsFrom_returned (noReturn : '\r' ∉ source) {ls : List (List Char)}
    (lines : Lines s ls) (same : c.rest = s) (h : Returned source c d) :
    commandsFrom limit d = (commandsFrom limit c).map (·.returned source) := by
  induction lines generalizing c d with
  | none => exact commandsFrom_returned_nil h same
  | last nonempty unbroken =>
      cases c
      cases same
      apply commandsFrom_returned_cons noReturn h nonempty
      · rcases before_of_last unbroken _ with comment | ⟨tail, alone, before, _⟩
        · exact .inl comment
        · exact .inr ⟨tail, alone, before⟩
      · intro e after
        rcases Command.read_last limit _ unbroken with ⟨line, q, _, read⟩
        rw [read] at after ⊢
        exact commandsFrom_returned_nil after rfl
  | @more text s _ unbroken ends _ ih =>
      rcases c with ⟨p, rest⟩
      rw [show rest = text ++ '\n' :: s from same] at h ⊢
      apply commandsFrom_returned_cons noReturn h (by simp)
      · rcases before_of_line unbroken ends _ _ with comment | ⟨tail, alone, before, _⟩
        · exact .inl comment
        · exact .inr ⟨tail, alone, before⟩
      · intro e after
        rcases Command.read_line limit _ unbroken ends with ⟨line, _, read⟩
        rw [read] at after ⊢
        exact ih rfl after

end

theorem commandsWithin_withReturns (limit : Int) {source : List Char} (noReturn : '\r' ∉ source) :
    commandsWithin limit (withReturns source) =
      (commandsWithin limit source).map (·.returned source) := by
  rcases exists_lines source with ⟨ls, lines⟩
  have first : Returned source (.start source) (.start (withReturns source)) := ⟨[], rfl, rfl, rfl⟩
  exact commandsFrom_returned noReturn lines rfl first

end ChatPreview
