import ChatPreview.Proofs.Line.Local

namespace ChatPreview
open Text Scan Token

mutual

theorem Node.relocate_id : ∀ n : Node, n.relocate id = n
  | ⟨kind, content, position, children⟩ => by rw [relocate, Node.relocateAll_id children]; rfl

theorem Node.relocateAll_id : ∀ nodes : List Node, Node.relocateAll id nodes = nodes
  | [] => rfl
  | n :: rest => by rw [relocateAll, Node.relocate_id n, Node.relocateAll_id rest]

end

/-- Cursors at one place of a line, read without and with `tail` behind it. -/
structure Before (tail : List Char) (c d : Cursor) : Prop where
  pos : d.pos = c.pos
  rest : d.rest = c.rest ++ tail
  joined : Joined c.rest
  seals : Seals tail c.rest

namespace Before
variable {tail : List Char} {c d : Cursor}

theorem alone (joined : Joined c.rest) : Before [] c c :=
  ⟨rfl, (List.append_nil c.rest).symm, joined, .inl rfl⟩

theorem reach (h : Before tail c d) {c' d' : Cursor} (ahead : c.Reaches c') (ahead' : d.Reaches d')
    (rest : d'.rest = c'.rest ++ tail) (joined : Joined c'.rest) : Before tail c' d' := by
  have suffix : c'.rest <:+ c.rest := by
    rcases ahead with ⟨read, split, _⟩
    exact ⟨read, split.symm⟩
  have total := ahead.length_add
  have total' := ahead'.length_add
  rw [h.pos, h.rest, rest, List.length_append, List.length_append] at total'
  exact ⟨by omega, rest, joined, h.seals.suffix suffix⟩

theorem head (h : Before tail c d) : (c.atLineEnd ∧ d.atLineEnd) ∨
    (¬c.atLineEnd ∧ ¬d.atLineEnd ∧ ∃ x s t, c.rest = x :: s ∧ d.rest = x :: t) := by
  cases split : c.rest with
  | nil =>
      have ended' := h.seals.atLineEnd d.pos
      have same : d = ⟨d.pos, tail⟩ := by
        cases d
        simpa [split] using h.rest
      exact .inl ⟨atLineEnd_iff.2 (.inl split), same ▸ ended'⟩
  | cons x s =>
      have same : c.atLineEnd = d.atLineEnd := by
        rw [Cursor.atLineEnd, Cursor.atLineEnd, h.rest,
          atNewline_append h.seals (by simp [split]), Cursor.atEnd, Cursor.atEnd, h.rest, split]
        rfl
      by_cases ended : c.atLineEnd
      · exact .inl ⟨ended, same ▸ ended⟩
      · exact .inr ⟨ended, same ▸ ended, x, s, s ++ tail, rfl, by rw [h.rest, split]; rfl⟩

theorem step (h : Before tail c d) {x : Char} {s : List Char} (split : c.rest = x :: s)
    (free : Continuation.starts c.rest = false) : Before tail (c.advance 1) (d.advance 1) := by
  have split' : d.rest = x :: (s ++ tail) := by rw [h.rest, split]; rfl
  have joined : Joined s := (split ▸ h.joined).of_cons (split ▸ free)
  apply h.reach (c.reaches_advance (by simp [split])) (d.reaches_advance (by simp [split']))
  · simp [Cursor.advance, split, split']
  · simpa [Cursor.advance, split] using joined

theorem leave (h : Before tail c d) {r : List Char} (part : r <:+ c.rest) (joined : Joined r) :
    Before tail (c.leave r) (d.leave (r ++ tail)) := by
  have part' : r ++ tail <:+ d.rest := by
    rcases part with ⟨read, split⟩
    exact ⟨read, by rw [h.rest, ← split, List.append_assoc]⟩
  exact h.reach (c.reaches_leave part) (d.reaches_leave part') rfl joined

theorem blanks (h : Before tail c d) :
    Before tail (c.skipWhile Text.isBlank) (d.skipWhile Text.isBlank) := by
  apply h.reach (c.reaches_skipWhile Text.isBlank) (d.reaches_skipWhile Text.isBlank)
  · rw [Cursor.skipWhile_rest, Cursor.skipWhile_rest, h.rest, h.seals.dropWhile_append]
  · rw [Cursor.skipWhile_rest]
    exact h.joined.dropWhile

theorem skip (h : Before tail c d) : Before tail (skipSpace c) (skipSpace d) := by
  have blanks := h.blanks
  rw [skipSpace_eq, skipSpace_eq, blanks.rest, rest?_append blanks.seals]
  cases found : Continuation.rest? (c.skipWhile isBlank).rest with
  | none => exact blanks
  | some r => exact blanks.leave (Continuation.rest?_suffix found) (blanks.joined.rest found)

theorem close (h : Before tail c d) {quote : Char} {s t : List Char} (split : c.rest = quote :: s)
    (split' : d.rest = quote :: t) (opens : isQuote quote) :
    Option.Rel (fun r r' => Before tail (c.leave r) (d.leave r')) (afterString? quote s)
      (afterString? quote t) := by
  have same : t = s ++ tail := by
    have whole := h.rest
    rw [split, split'] at whole
    exact (List.cons.inj whole).2
  have plain : Continuation.starts (quote :: s) = false := starts_of_solid (solid_of_isQuote opens)
  rw [same, afterString?_append (h.seals.suffix (split ▸ List.suffix_cons _ _))]
  cases closed : afterString? quote s with
  | none => exact .none
  | some r =>
      have joined : Joined s := (split ▸ h.joined).of_cons plain
      have part : r <:+ c.rest :=
        split ▸ (afterString?_suffix closed).trans (List.suffix_cons _ _)
      exact .some (h.leave part (joined.afterString opens closed))

theorem span (h : Before tail c d) {c' d' : Cursor} (h' : Before tail c' d')
    (ahead : c.Reaches c') (ahead' : d.Reaches d') : c.upTo c' = d.upTo d' := by
  have whole := ahead'.upTo_append
  rw [h.rest, h'.rest, ← ahead.upTo_append, List.append_assoc] at whole
  exact (List.append_cancel_right whole).symm

/-- Text behind a line changes nothing about how its nodes are read. -/
theorem alignment (tail : List Char) : Alignment id (Before tail) where
  pos h := h.pos
  ordered h h' further := by rw [h.pos, h'.pos]; exact further
  head h := h.head
  starts h := by rw [h.rest, starts_append h.seals]
  step h split _ _ free := h.step split free
  skip h := h.skip
  close h split split' opens := h.close split split' opens
  span h h' ahead ahead' := by rw [h.span h' ahead ahead']

theorem skipLine (h : Before tail c d) :
    Before tail (Command.skipLine c) (Command.skipLine d) ∧ (Command.skipLine c).rest = [] := by
  revert d
  fun_induction Command.skipLine c with
  | case1 c r found ih =>
      intro d h
      have found' : Continuation.rest? d.rest = some (r ++ tail) := by
        rw [h.rest, rest?_append h.seals, found, Option.map_some]
      rw [Command.skipLine_of_some found']
      exact ih (h.leave (Continuation.rest?_suffix found) (h.joined.rest found))
  | case2 c free ended =>
      intro d h
      have last : c.rest = [] := h.joined.atLineEnd (p := c.pos) ended
      rcases h.head with ⟨_, ended'⟩ | ⟨inside, _⟩
      · rw [Command.skipLine_atLineEnd ended']
        exact ⟨h, last⟩
      · exact absurd ended inside
  | case3 c free inside ih =>
      intro d h
      rcases h.head with ⟨ended, _⟩ | ⟨_, inside', x, s, t, split, _⟩
      · exact absurd ended inside
      · have free' : Continuation.rest? d.rest = none := by
          rw [h.rest, rest?_append_of_none h.seals free]
        rw [Command.skipLine_of_none free' inside']
        exact ih (h.step split (by rw [Continuation.starts, free]; rfl))

end Before

theorem trim_around (s : List Char) : ∃ trail, s = s.takeWhile isSpace ++ trim s ++ trail ∧
    ∀ x ∈ s.takeWhile isSpace ++ trail, isSpace x := by
  rcases trim_split s with ⟨trail, split, spaces⟩
  refine ⟨trail, split, fun x member => ?_⟩
  rcases List.mem_append.1 member with lead | after
  · exact List.mem_takeWhile_imp lead
  · exact spaces x after

/-- A command that holds all of a line but white space around it. -/
def Spans (p : Nat) (line : List Char) (c : Command) : Prop :=
  ∃ lead trail, line = lead ++ c.raw ++ trail ∧ (∀ x ∈ lead ++ trail, isSpace x) ∧
    c.position = p + lead.length ∧ c.stop = c.position + c.raw.length

namespace Spans
variable {p : Nat} {line : List Char} {c : Command}

theorem append (spans : Spans p line c) {after : List Char} (spaces : ∀ x ∈ after, isSpace x) :
    Spans p (line ++ after) c := by
  rcases spans with ⟨lead, trail, rfl, around, start, stop⟩
  refine ⟨lead, trail ++ after, by simp, fun x member => ?_, start, stop⟩
  rw [← List.append_assoc] at member
  rcases List.mem_append.1 member with inside | outside
  · exact around x inside
  · exact spaces x outside

theorem after_blanks {blanks : List Char} (spans : Spans (p + blanks.length) line c)
    (blank : ∀ x ∈ blanks, isBlank x) : Spans p (blanks ++ line) c := by
  rcases spans with ⟨lead, trail, rfl, around, start, stop⟩
  refine ⟨blanks ++ lead, trail, by simp, fun x member => ?_, ?_, stop⟩
  · rw [List.append_assoc] at member
    rcases List.mem_append.1 member with first | inside
    · exact isSpace_of_isBlank (blank x first)
    · exact around x inside
  · rw [start, List.length_append]
    omega

end Spans

namespace Command
variable {tail : List Char} {c d : Cursor}

theorem readNodes_before (limit : Int) (h : Before tail c d) :
    (readNodes limit d).nodes = (readNodes limit c).nodes ∧
      (readNodes limit d).error = (readNodes limit c).error ∧
      Before tail (readNodes limit c).next (readNodes limit d).next ∧
      (readNodes limit c).next.rest = [] := by
  have agree := (Before.alignment tail).readNodes_agree
    (E := fun c d => Before tail c d ∧ c.rest = []) Before.skipLine limit h
  rcases agree with ⟨nodes, error, last⟩
  refine ⟨?_, ?_, last⟩
  · calc
      _ = (readNodes limit c).nodes.map (·.relocate id) := nodes
      _ = (readNodes limit c).nodes.map id := List.map_congr_left fun n _ => n.relocate_id
      _ = (readNodes limit c).nodes := List.map_id _
  · generalize (readNodes limit c).error = e at error
    generalize (readNodes limit d).error = e' at error
    cases error <;> rfl

theorem pastDollar_before (h : Before tail c d) : Before tail (pastDollar c) (pastDollar d) := by
  have mark := (Before.alignment tail).head? (x := '$') (by decide) h
  rw [pastDollar, pastDollar]
  by_cases dollar : c.rest.head? = some '$'
  · rw [if_pos dollar, if_pos (mark.1 dollar)]
    rcases List.head?_eq_some_iff.1 dollar with ⟨s, split⟩
    exact h.step split (split ▸ rfl)
  · rw [if_neg dollar, if_neg (mt mark.2 dollar)]
    exact h

theorem readLine_before (limit : Int) (h : Before tail c d) : readLine limit d =
    ((readLine limit c).1, pastNewline ⟨c.pos + c.rest.length, tail⟩) := by
  have mark := (Before.alignment tail).head? (x := '$') (by decide) h
  have inner := pastDollar_before h
  rcases readNodes_before limit inner with ⟨nodes, error, last, ended⟩
  have ahead := (reaches_pastDollar c).trans (readNodes_spec limit (pastDollar c)).1
  have ahead' := (reaches_pastDollar d).trans (readNodes_spec limit (pastDollar d)).1
  have text := h.span last ahead ahead'
  have total := ahead.length_add
  have next : (readNodes limit (pastDollar d)).next = ⟨c.pos + c.rest.length, tail⟩ := by
    have pos := last.pos
    have rest := last.rest
    rw [ended] at rest total
    generalize (readNodes limit (pastDollar d)).next = next at pos rest
    cases next
    simp_all
  rw [readLine, readLine, nodes, error, ← text, h.pos, ← next]
  simp only [mark]

theorem readLine_spans (limit : Int) (h : Before tail c d) :
    Spans c.pos c.rest (readLine limit c).1 := by
  have ended := (readNodes_before limit (pastDollar_before h)).2.2.2
  have ahead := (reaches_pastDollar c).trans (readNodes_spec limit (pastDollar c)).1
  have whole : c.upTo (readNodes limit (pastDollar c)).next = c.rest := by
    have split := ahead.upTo_append
    rwa [ended, List.append_nil] at split
  rcases trim_around c.rest with ⟨trail, split, around⟩
  rw [readLine, whole]
  by_cases empty : trim c.rest = []
  · rw [empty, List.append_nil] at split
    refine ⟨[], c.rest, by simp [empty], fun x member => ?_, by simp [empty], rfl⟩
    rw [List.nil_append, split] at member
    exact around x member
  · exact ⟨c.rest.takeWhile isSpace, trail, split, around, by simp [empty], rfl⟩

theorem read_before (limit : Int) (h : Before tail c d) (code : ¬IsComment c.rest) :
    read limit d = ((read limit c).1, pastNewline ⟨c.pos + c.rest.length, tail⟩) ∧
      Spans c.pos c.rest (read limit c).1 := by
  have blanks := h.blanks
  have first : (c.skipWhile Text.isBlank).rest.head? ≠ some '#' := by
    rwa [Cursor.skipWhile_rest]
  have mark := (Before.alignment tail).head? (x := '#') (by decide) blanks
  have line := readLine_before limit blanks
  have spans := readLine_spans limit blanks
  have split := List.takeWhile_append_dropWhile (p := Text.isBlank) (l := c.rest)
  rw [read, read, if_neg first, if_neg (mt mark.2 first), line,
    ← (c.reaches_skipWhile Text.isBlank).length_add]
  refine ⟨rfl, ?_⟩
  rw [Cursor.skipWhile_rest] at spans
  have whole := Spans.after_blanks spans fun x => List.mem_takeWhile_imp
  rwa [split] at whole

def ofComment (p : Nat) (text : List Char) : Command :=
  { raw := text, nodes := [⟨.comment, text, p, []⟩], start := p, position := p,
    stop := p + text.length, isMacro := false, error := none }

theorem readComment_append {t s : List Char} (one : '\n' ∉ t)
    (ends : s = [] ∨ ∃ after, s = '\n' :: after) (p : Nat) : readComment ⟨p, t ++ s⟩ =
      (ofComment p (dropEndWhile (· == '\r') t), pastNewline ⟨p + t.length, s⟩) := by
  have through : ∀ x ∈ t, (x != '\n') = true := by
    intro x member
    have : x ≠ '\n' := fun same => one (same ▸ member)
    simpa using this
  have alone : (t ++ s).takeWhile (· != '\n') = t := by
    rw [List.takeWhile_append_of_pos through]
    rcases ends with rfl | ⟨after, rfl⟩ <;> simp
  have line : (⟨p, t ++ s⟩ : Cursor).skipWhile (· != '\n') = ⟨p + t.length, s⟩ := by
    simp [Cursor.skipWhile, Cursor.advance, alone]
  have text : (⟨p, t ++ s⟩ : Cursor).upTo ⟨p + t.length, s⟩ = t := by
    simp [Cursor.upTo]
  rw [readComment, line, text]
  rfl

theorem readComment_line {t : List Char} (one : '\n' ∉ t) (p : Nat) :
    ∃ c, Spans p t c ∧ ∀ s, (s = [] ∨ ∃ after, s = '\n' :: after) →
      readComment ⟨p, t ++ s⟩ = (c, pastNewline ⟨p + t.length, s⟩) := by
  rcases dropEndWhile_split (· == '\r') t with ⟨trail, split, returns⟩
  refine ⟨_, ?_, fun s ends => readComment_append one ends p⟩
  refine ⟨[], trail, split, fun x member => ?_, rfl, rfl⟩
  rw [List.nil_append] at member
  rw [beq_iff_eq.1 (returns x member)]
  rfl

theorem read_comment (limit : Int) (p : Nat) {text : List Char} (comment : IsComment text)
    (one : '\n' ∉ text) : ∃ c, Spans p text c ∧ ∀ s, (s = [] ∨ ∃ after, s = '\n' :: after) →
      read limit ⟨p, text ++ s⟩ = (c, pastNewline ⟨p + text.length, s⟩) := by
  have split := List.takeWhile_append_dropWhile (p := Text.isBlank) (l := text)
  have blank : ∀ x ∈ text.takeWhile Text.isBlank, Text.isBlank x := fun x => List.mem_takeWhile_imp
  generalize text.takeWhile Text.isBlank = blanks at split blank
  rcases List.head?_eq_some_iff.1 comment with ⟨t, hash⟩
  rw [hash] at split
  subst split
  have after : '\n' ∉ '#' :: t := fun member => one (List.mem_append_right _ member)
  rcases readComment_line after (p + blanks.length) with ⟨c, spans, line⟩
  refine ⟨c, spans.after_blanks blank, fun s ends => ?_⟩
  have first : (⟨p, blanks ++ '#' :: t ++ s⟩ : Cursor).skipWhile Text.isBlank =
      ⟨p + blanks.length, '#' :: t ++ s⟩ := by
    have none : ('#' :: t ++ s).takeWhile Text.isBlank = [] := rfl
    rw [Cursor.skipWhile, List.append_assoc, List.takeWhile_append_of_pos blank, none]
    simp [Cursor.advance]
  simp only [read, first, List.cons_append, List.head?_cons, if_true]
  rw [← List.cons_append, line s ends, List.length_append, Nat.add_assoc]

theorem exists_line_end {text : List Char} (joined : Joined text) (free : ¬Continued text) :
    ∃ line ret, text = line ++ ret ∧ (∀ x ∈ ret, isSpace x) ∧ Joined line ∧
      ∀ s, Seals (ret ++ '\n' :: s) line ∧
        ∀ p, pastNewline ⟨p, ret ++ '\n' :: s⟩ = ⟨p + ret.length + 1, s⟩ := by
  by_cases returned : text.getLast? = some '\r'
  · rcases List.getLast?_eq_some_iff.1 returned with ⟨line, rfl⟩
    refine ⟨line, ['\r'], rfl, ?_, ?_, fun s => ⟨?_, fun p => ?_⟩⟩
    · intro x member
      rw [List.mem_singleton.1 member]
      rfl
    · rintro before after rfl
      exact joined before (after ++ ['\r']) (by simp)
    · exact .inr ⟨['\r'], s, rfl, free, .inl rfl⟩
    · simp [pastNewline, afterNewline?, Cursor.leave, show s.length + 1 + 1 - s.length = 2 by omega]
  · refine ⟨text, [], (List.append_nil text).symm, by simp, joined, fun s => ⟨?_, fun p => ?_⟩⟩
    · exact .inr ⟨[], s, rfl, by rwa [List.append_nil], .inr ⟨rfl, returned⟩⟩
    · simp [pastNewline, afterNewline?, Cursor.leave]

theorem joined_of_unbroken {text : List Char} (unbroken : Unbroken text) : Joined text :=
  fun before after split => (unbroken before after split).2

/-- A line that a line feed ends is one command, whatever follows. -/
theorem read_line (limit : Int) (p : Nat) {text : List Char} (unbroken : Unbroken text)
    (ends : IsComment text ∨ ¬Continued text) : ∃ c, Spans p text c ∧
      ∀ s, read limit ⟨p, text ++ '\n' :: s⟩ = (c, ⟨p + text.length + 1, s⟩) := by
  by_cases comment : IsComment text
  · have one := unbroken.feed_not_mem comment
    rcases read_comment limit p comment one with ⟨c, spans, line⟩
    refine ⟨c, spans, fun s => ?_⟩
    rw [line _ (.inr ⟨s, rfl⟩)]
    simp [pastNewline, afterNewline?, Cursor.leave]
  · have free : ¬Continued text := ends.resolve_left comment
    rcases exists_line_end (joined_of_unbroken unbroken) free with
      ⟨line, ret, rfl, spaces, joined, closed⟩
    have code : ¬IsComment line := fun first => comment (first.append ret)
    have before (s : List Char) :
        Before (ret ++ '\n' :: s) ⟨p, line⟩ ⟨p, line ++ (ret ++ '\n' :: s)⟩ :=
      ⟨rfl, rfl, joined, (closed s).1⟩
    refine ⟨_, (read_before limit (before []) code).2.append spaces, fun s => ?_⟩
    rw [List.append_assoc, (read_before limit (before s) code).1, (closed s).2,
      List.length_append, Nat.add_assoc p]

theorem read_last (limit : Int) (p : Nat) {text : List Char} (unbroken : Unbroken text) :
    ∃ c q, Spans p text c ∧ read limit ⟨p, text⟩ = (c, ⟨q, []⟩) := by
  by_cases comment : IsComment text
  · have one := unbroken.feed_not_mem comment
    rcases read_comment limit p comment one with ⟨c, spans, line⟩
    have whole := line [] (.inl rfl)
    rw [List.append_nil] at whole
    exact ⟨c, _, spans, whole⟩
  · have line := read_before limit (.alone (c := ⟨p, text⟩) (joined_of_unbroken unbroken)) comment
    exact ⟨_, _, line.2, line.1⟩

end Command
end ChatPreview
