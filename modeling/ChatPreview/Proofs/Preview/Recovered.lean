import ChatPreview.Proofs.Line.Tiles
import ChatPreview.Proofs.Message.Commands
import ChatPreview.Proofs.Message.Spacing
import ChatPreview.Proofs.Message.Unescape
import ChatPreview.Proofs.Nesting.Message
/-!
Messages that are nested too deeply for a command: what is recovered of them from the unread text
shows as it would with a higher limit.
-/
namespace ChatPreview
open Text Scan Token

/-! ## A source of one line -/

theorem lines_of_single {limit : Int} {source : List Char} {c : Command}
    (one : commandsWithin limit source = [c]) : Lines source [source] := by
  obtain ⟨ls, lines⟩ := exists_lines source
  have commands := (commandsFrom_lines limit lines 0).1
  change commandsWithin limit source = _ at commands
  rw [one] at commands
  have whole := lines.flatten
  cases ls with
  | nil => cases commands
  | cons line ls =>
      cases ls with
      | nil =>
          rw [List.flatten_cons, List.flatten_nil, List.append_nil] at whole
          rwa [whole] at lines
      | cons next ls => cases commands

theorem space_of_lineEnds {s : List Char} (ends : s ∈ lineEnds) : ∀ x ∈ s, isSpace x := by
  have each : ∀ s ∈ lineEnds, s.all isSpace := by decide
  exact List.all_eq_true.1 (each s ends)

theorem command_of_line {source t : List Char} {x : Char} (lines : Lines source [source])
    (starts : source = x :: t) (solid : Solid x) (ink : isSpace x = false) (noHash : x ≠ '#')
    (noDollar : x ≠ '$') (limit : Int) : ∃ c, commandsWithin limit source = [c] ∧
      c.raw = trimEnd source ∧ c.position = 0 ∧
      c.nodes = (Command.readNodes limit ⟨0, source⟩).nodes ∧
      c.error = (Command.readNodes limit ⟨0, source⟩).error ∧
      ∀ y ∈ (Command.readNodes limit ⟨0, source⟩).next.rest, isSpace y := by
  have commands := (commandsFrom_lines limit lines 0).1
  change commandsWithin limit source = [(Command.read limit ⟨0, source⟩).1] at commands
  have ended := Command.read_line_end limit lines 0 ⟨0, source⟩ List.mem_cons_self
  have first : (⟨0, source⟩ : Cursor).skipWhile Text.isBlank = ⟨0, source⟩ := by
    rw [Cursor.skipWhile, starts, List.takeWhile_cons_of_neg (by simp [solid.not_blank])]
    rfl
  have code : source.head? ≠ some '#' := by
    rw [starts, List.head?_cons]
    exact fun same => noHash (Option.some.inj same)
  have mark : Command.pastDollar ⟨0, source⟩ = ⟨0, source⟩ := by
    rw [Command.pastDollar, starts, List.head?_cons,
      if_neg fun same => noDollar (Option.some.inj same)]
  rw [Command.read, first, if_neg code] at commands ended
  rw [Command.readLine, mark] at ended
  have spaces := space_of_lineEnds
    (Command.mem_lineEnds (Command.readNodes_spec limit ⟨0, source⟩).2 ended)
  obtain ⟨c, read, raw, position, nodes, error⟩ :=
    Command.readLine_of_head limit starts ink noDollar spaces
  rw [read] at commands
  exact ⟨c, commands, raw, position, nodes, error, spaces⟩

theorem Command.readNodes_single {limit : Int} {c : Cursor} {n : Node}
    (single : (readNodes limit c).nodes = [n]) (whole : (readNodes limit c).error = none) :
    ∃ d, ¬(skipSpace c).atLineEnd ∧ top limit (skipSpace c) = .ok n d ∧
      (skipSpace d).atLineEnd ∧ (readNodes limit c).next = skipSpace d := by
  by_cases ended : (skipSpace c).atLineEnd
  · rw [readNodes_of_end ended] at single
    cases single
  · cases first : top limit (skipSpace c) with
    | fail e d =>
        rw [readNodes_of_fail ended first] at single
        cases single
    | ok m d =>
        rw [readNodes_of_ok ended first] at single whole ⊢
        obtain ⟨rfl, rest⟩ := List.cons.inj single
        refine ⟨d, ended, rfl, ?_⟩
        by_cases last : (skipSpace d).atLineEnd
        · exact ⟨last, by rw [readNodes_of_end last]⟩
        · cases second : top limit (skipSpace d) with
          | fail e f =>
              simp only at whole
              rw [readNodes_of_fail last second] at whole
              cases whole
          | ok k f =>
              rw [readNodes_of_ok last second] at rest
              cases rest

/-! ## The text of the message -/

/-- What is left of the indents of a text, which `content` is without, are spaces between the parts of
a message that can be decoded. -/
def Message.Spaced (levels : Nat) (raw content : List Char) : Prop :=
  (∃ v, Json.decode levels (unescape raw) = .ok v) ∧ Json.Thins (unescape raw) (unescape content)

theorem prefix_of_ink {s t text ending : List Char} {x : Char}
    (split : s ++ x :: t = text ++ ending) (spaces : ∀ y ∈ ending, isSpace y)
    (ink : isSpace x = false) : s ++ [x] <+: text := by
  have outside : x ∉ ending := by
    intro member
    have space := spaces x member
    rw [ink] at space
    cases space
  rcases List.append_eq_append_iff.1 split with ⟨u, rfl, tail⟩ | ⟨u, rfl, tail⟩
  · cases u with
    | nil => exact absurd (by rw [← show x :: t = ending from tail]; exact List.mem_cons_self) outside
    | cons y u =>
        cases tail
        exact ⟨u, by simp⟩
  · exact absurd (by rw [tail]; simp) outside

theorem joined_of_line {source : List Char} (lines : Lines source [source]) :
    ∃ text ending, source = text ++ ending ∧ Joined text ∧ ∀ x ∈ ending, isSpace x := by
  generalize single : [source] = ls at lines
  cases lines with
  | none => cases single
  | last _ unbroken =>
      refine ⟨source, [], (List.append_nil source).symm, ?_, by simp⟩
      exact Command.joined_of_unbroken unbroken
  | @more text s ls unbroken _ _ =>
      refine ⟨text, ['\n'], (List.cons.inj single).1, Command.joined_of_unbroken unbroken, ?_⟩
      intro x member
      rw [List.mem_singleton.1 member]
      rfl

theorem Joined.of_infix {before s after t : List Char} {x : Char}
    (joined : Joined (before ++ s ++ after)) (starts : s = x :: t) (solid : Solid x) : Joined s := by
  intro u v split
  have continued : Continued (before ++ u) := by
    apply joined (before ++ u) (v ++ after)
    rw [split]
    simp
  cases u with
  | nil =>
      rw [starts] at split
      exact absurd (by simp [(List.cons.inj split).1]) solid
  | cons y u =>
      have same : y = x := by
        rw [starts] at split
        exact (List.cons.inj split).1.symm
      rcases continued.of_append with inside | ⟨first, trail, _, trails⟩
      · exact inside
      · have member : y ∈ trail ++ y :: u := List.mem_append_right trail List.mem_cons_self
        have other : x ≠ '\r' := fun same => solid (by simp [same])
        exact absurd member (trails.not_mem (same ▸ solid.not_blank) (same ▸ other))

theorem joined_of_part {source before inside after t : List Char} {x y : Char}
    (lines : Lines source [source]) (split : source = before ++ (inside ++ [y]) ++ after)
    (starts : inside ++ [y] = x :: t) (solid : Solid x) (ink : isSpace y = false) :
    Joined (inside ++ [y]) := by
  obtain ⟨text, ending, whole, joined, spaces⟩ := joined_of_line lines
  have parts : (before ++ inside) ++ y :: after = text ++ ending := by
    rw [← whole, split]
    simp
  obtain ⟨tail, rfl⟩ := prefix_of_ink parts spaces ink
  rw [List.append_assoc before] at joined
  exact joined.of_infix starts solid

theorem Gap.spaces {s : List Char} (gap : Gap s) :
    (∀ x ∈ s, isBlank x) ∨ ∃ u v, s = u ++ '\\' :: v ∧ ∀ x ∈ v, isSpace x := by
  induction gap with
  | none => exact .inl (by simp)
  | @blank x s first _ ih =>
      rcases ih with blanks | ⟨u, v, rfl, spaces⟩
      · refine .inl fun y member => ?_
        cases member with
        | head => exact first
        | tail _ later => exact blanks y later
      · exact .inr ⟨x :: u, v, rfl, spaces⟩
  | @carry trail s trails _ ih =>
      rcases ih with blanks | ⟨u, v, rfl, spaces⟩
      · refine .inr ⟨[], trail ++ '\n' :: s, rfl, fun y member => ?_⟩
        rcases List.mem_append.1 member with inTrail | later
        · rcases trails.mem inTrail with blank | rfl
          · exact isSpace_of_isBlank blank
          · rfl
        · rcases List.mem_cons.1 later with rfl | indent
          · rfl
          · exact isSpace_of_isBlank (blanks y indent)
      · exact .inr ⟨'\\' :: (trail ++ '\n' :: u), v, by simp, spaces⟩

theorem Gap.spaces_of_closed {s gap ending : List Char} (h : Gap gap)
    (spaces : ∀ x ∈ ending, isSpace x)
    (closed : (trimEnd (s ++ (gap ++ ending))).getLast? ≠ some '\\') :
    ∀ x ∈ gap ++ ending, isSpace x := by
  rcases h.spaces with blanks | ⟨u, v, rfl, after⟩
  · intro x member
    rcases List.mem_append.1 member with inGap | later
    · exact isSpace_of_isBlank (blanks x inGap)
    · exact spaces x later
  · have trail : ∀ x ∈ v ++ ending, isSpace x := by
      intro x member
      rcases List.mem_append.1 member with inGap | later
      · exact after x inGap
      · exact spaces x later
    have split : s ++ (u ++ '\\' :: v ++ ending) = (s ++ u ++ ['\\']) ++ (v ++ ending) := by simp
    rw [split, Text.trimEnd_append trail, Text.trimEnd_of_last rfl rfl, List.getLast?_concat] at closed
    exact absurd rfl closed

theorem trimEnd_ne_nil {s t : List Char} {x : Char} (starts : s = x :: t) (ink : isSpace x = false) :
    trimEnd s ≠ [] := by
  intro empty
  obtain ⟨trail, split, spaces⟩ := dropEndWhile_split isSpace s
  rw [show dropEndWhile isSpace s = [] from empty, List.nil_append] at split
  have space := spaces x (by rw [← split, starts]; exact List.mem_cons_self)
  rw [ink] at space
  cases space

namespace Preview

theorem opens_append {s : List Char} (nonempty : s ≠ []) (t : List Char) :
    opens (s ++ t) = opens s := by
  cases s with
  | nil => exact absurd rfl nonempty
  | cons x s =>
      rw [List.cons_append, opens.eq_def, opens.eq_def]
      split <;> simp_all

theorem solid_of_opens {s : List Char} {kind : Kind} (opened : opens s = some kind) :
    ∃ x t, s = x :: t ∧ Solid x := by
  unfold opens at opened
  split at opened
  · exact ⟨'\x7b', _, rfl, by decide⟩
  · exact ⟨'[', _, rfl, by decide⟩
  · exact ⟨'"', _, rfl, by decide⟩
  · exact ⟨'\'', _, rfl, by decide⟩
  · cases opened

/-- What a limit may leave unread without a change to what is shown: the last line is not continued,
and the indents of the others are not spaces, or stand outside of the strings of a message that can
be decoded. -/
structure Even (host : Host) (source : List Char) (n : Node) : Prop where
  closed : (trimEnd source).getLast? ≠ some '\\'
  indents : Message.Flush ((trimEnd source).drop n.position) ∨
    Message.Spaced host.decodedLevels ((trimEnd source).drop n.position) n.content

section
variable {host : Host}

theorem ofMessage_congr {raw raw' : List Char}
    (same : Message.unescape raw = Message.unescape raw') :
    ofMessage host raw = ofMessage host raw' := by
  rw [ofMessage, ofMessage, Message.read, Message.read, same]

theorem ofMessage_of_spaced {raw content : List Char}
    (spaced : Message.Spaced host.decodedLevels raw content) :
    ofMessage host raw = ofMessage host content := by
  obtain ⟨⟨v, decoded⟩, thins⟩ := spaced
  rw [ofMessage, ofMessage, Message.read, Message.read, decoded, Json.decode_thins thins decoded]

/-- Where a node in brackets or quotes is the last of a line, the line ends with the text that the
node was read from, which is the same message as its content. -/
theorem unread_of_last {source lead s : List Char} {limit : Int} {c d : Cursor} {n : Node}
    (lines : Lines source [source]) (split : source = lead ++ s)
    (ahead : (⟨lead.length, s⟩ : Cursor).Reaches c) (enclosed : n.kind.Enclosed)
    (read : top limit c = .ok n d) (spaces : ∀ x ∈ (skipSpace d).rest, isSpace x)
    (even : Even host source n) :
    ∃ before span, trimEnd source = before ++ span ∧ before.length = c.pos ∧
      opens span = some n.kind ∧ ofMessage host span = ofMessage host n.content := by
  obtain ⟨skipped, rest, pos⟩ := ahead
  obtain ⟨onward, further⟩ := consumes_top limit read
  obtain ⟨place, content⟩ := top_eq_between read
  obtain ⟨opened, inside, y, ends, ink⟩ :=
    opens_of_item (forward_inside limit limit.toNat) enclosed (item_of_top read)
  have start : (lead ++ skipped).length = c.pos := by rw [List.length_append, pos]
  have span : c.upTo d = inside ++ [y] := onward.upTo_eq (by rw [ends]; simp)
  have gap := (reaches_skipSpace d).upTo_append
  have line : source = lead ++ skipped ++ (inside ++ [y]) ++
      (d.upTo (skipSpace d) ++ (skipSpace d).rest) := by
    rw [split, show s = skipped ++ c.rest from rest, ends, gap]
    simp
  have last : ∀ x ∈ d.upTo (skipSpace d) ++ (skipSpace d).rest, isSpace x :=
    (gap_skipSpace d).spaces_of_closed spaces (line ▸ even.closed)
  have opened' : opens (inside ++ [y]) = some n.kind := by
    rw [← opened, ends, show inside ++ y :: d.rest = (inside ++ [y]) ++ d.rest by simp]
    exact (opens_append (by simp) d.rest).symm
  have trimmed : trimEnd source = lead ++ skipped ++ (inside ++ [y]) := by
    rw [line, Text.trimEnd_append last]
    exact Text.trimEnd_of_last (List.append_assoc _ inside [y]).symm ink
  refine ⟨lead ++ skipped, inside ++ [y], trimmed, start, opened', ?_⟩
  have tail : (trimEnd source).drop n.position = inside ++ [y] := by
    rw [trimmed, place, ← start, List.drop_left]
  rcases even.indents with flush | spaced
  · obtain ⟨x, t, starts, solid⟩ := solid_of_opens opened'
    have joined := joined_of_part lines line starts solid ink
    apply ofMessage_congr
    rw [content, span, Message.unescape_joinLines (tail ▸ flush) joined]
  · exact ofMessage_of_spaced (tail ▸ spaced)

end

/-- What a limit reads of a line after some words, as nodes of its one command. -/
structure Led (leads : List Lead) (s : List Char) (limit : Int) (c : Command) (body : Command.Body) :
    Prop where
  read : body = Command.readNodes limit ⟨(leading (leads.map Lead.text)).length, s⟩
  one : commandsWithin limit (leading (leads.map Lead.text) ++ s) = [c]
  filled : c.isBlank = false
  raw : c.raw = trimEnd (leading (leads.map Lead.text) ++ s)
  position : c.position = 0
  nodes : c.nodes = leadNodes 0 leads ++ body.nodes
  error : c.error = body.error
  spaces : ∀ x ∈ body.next.rest, isSpace x

section
variable {leads : List Lead} {limit limit' : Int} {s : List Char} {c : Command} {first : List Node}
  {n : Node}

theorem exists_led (nonempty : leads ≠ [])
    (lines : Lines (leading (leads.map Lead.text) ++ s) [leading (leads.map Lead.text) ++ s])
    (limit : Int) : ∃ c body, Led leads s limit c body := by
  obtain ⟨x, t, starts, solid, ink, noHash, noDollar⟩ := leading_head nonempty s
  obtain ⟨c, one, raw, position, nodes, error, spaces⟩ :=
    command_of_line lines starts solid ink noHash noDollar limit
  rw [Command.readNodes_leading _ 0 leads rfl, Nat.zero_add] at nodes error spaces
  refine ⟨c, _, rfl, one, ?_, raw, position, nodes, error, spaces⟩
  rw [Command.isBlank, raw, List.isEmpty_eq_false_iff]
  exact trimEnd_ne_nil starts ink

theorem Led.last {body : Command.Body} (led : Led leads s limit c body) (whole : c.error = none)
    (nodes : c.nodes = first ++ [n]) (length : first.length = leads.length) :
    ∃ d, ¬(skipSpace ⟨(leading (leads.map Lead.text)).length, s⟩).atLineEnd ∧
      top limit (skipSpace ⟨(leading (leads.map Lead.text)).length, s⟩) = .ok n d ∧
      (skipSpace d).atLineEnd ∧ ∀ x ∈ (skipSpace d).rest, isSpace x := by
  have single := (List.append_inj (led.nodes.symm.trans nodes)
    ((length_leadNodes 0 leads).trans length.symm)).2
  have ended := led.error.symm.trans whole
  have spaces := led.spaces
  rw [led.read] at single ended spaces
  obtain ⟨d, inside, read, last, next⟩ := Command.readNodes_single single ended
  rw [next] at spaces
  exact ⟨d, inside, read, last, spaces⟩

/-- With words before it, a message that some limit lets be read is the message with any other limit,
which may leave it unread if the text is even. -/
theorem subject_recovered {host : Host} {catalog : Template.Catalog} (nonempty : leads ≠ [])
    (carries : Carries catalog leads)
    (one : commandsWithin limit (leading (leads.map Lead.text) ++ s) = [c]) (whole : c.error = none)
    (nodes : c.nodes = first ++ [n]) (length : first.length = leads.length) (enclosed : n.kind.Enclosed)
    (even : ∀ c' ∈ commandsWithin limit' (leading (leads.map Lead.text) ++ s),
      c'.error ≠ none → Even host (leading (leads.map Lead.text) ++ s) n) :
    ∃ c' raw, commandsWithin limit' (leading (leads.map Lead.text) ++ s) = [c'] ∧
      c'.isBlank = false ∧ subject catalog c' = some (.message raw) ∧
      ofMessage host raw = ofMessage host n.content := by
  have lines := lines_of_single one
  obtain ⟨c₁, body₁, led₁⟩ := exists_led nonempty lines limit
  obtain rfl : c = c₁ := List.singleton_inj.1 (one.symm.trans led₁.one)
  obtain ⟨d, inside, read, ended, spaces⟩ := led₁.last whole nodes length
  obtain ⟨c₂, body₂, rfl, one₂, filled, raw, position, nodes₂, error₂, _⟩ :=
    exists_led nonempty lines limit'
  have second : top limit' (skipSpace ⟨(leading (leads.map Lead.text)).length, s⟩) = .ok n d ∨
      (top limit' (skipSpace ⟨(leading (leads.map Lead.text)).length, s⟩)).Fails := by
    rcases Int.le_total limit limit' with le | ge
    · exact .inl (top_of_fewer le enclosed read)
    · exact top_of_more ge enclosed read
  rcases second with same | ⟨e, f, failed⟩
  · rw [Command.readNodes_of_ok inside same, Command.readNodes_of_end ended] at nodes₂ error₂
    exact ⟨c₂, n.content, one₂, filled, subject_of_read carries enclosed nodes₂ error₂, rfl⟩
  · have stopped : c₂.error ≠ none := by
      rw [error₂, Command.readNodes_of_fail inside failed]
      exact Option.some_ne_none e
    have level := even c₂ (by rw [one₂]; exact List.mem_cons_self) stopped
    obtain ⟨before, span, text, start, opened, same⟩ :=
      unread_of_last lines rfl (reaches_skipSpace _) enclosed read spaces level
    have held : Holds span before.length
        (Command.readNodes limit' ⟨(leading (leads.map Lead.text)).length, s⟩) := by
      rw [Command.readNodes_of_fail inside failed]
      apply Holds.failed
      rw [(top_fail failed).1, start]
    have found := subject_of_holds carries ⟨n.kind, opened⟩ (raw.trans text) position nodes₂
      error₂ held
    exact ⟨c₂, span, one₂, filled, found, same⟩

end

/-- A message that some limit lets be read is previewed as the content of its node. Where the limit
of a preview is too low for it, this takes an even text. -/
theorem ofText_recovered {host : Host} {limit : Int} {s : List Char} {c : Command} {a b n : Node}
    (one : commandsWithin limit ("tellraw @s ".toList ++ s) = [c]) (whole : c.error = none)
    (nodes : c.nodes = [a, b, n]) (enclosed : n.kind.Enclosed)
    (even : ∀ c' ∈ commands ("tellraw @s ".toList ++ s), c'.error ≠ none →
      Even host ("tellraw @s ".toList ++ s) n) :
    ofText host Template.standard ("tellraw @s ".toList ++ s) =
      some <$> ofMessage host n.content := by
  let leads : List Lead := [.fixed "tellraw" (by decide), .selector 's' (by decide)]
  have carries : Carries Template.standard leads := by
    rintro kind content position children (rfl | rfl | rfl) <;> exact ⟨_, rfl, rfl⟩
  have split : c.nodes = [a, b] ++ [n] := nodes
  have nonempty : leads ≠ [] := by simp [leads]
  obtain ⟨c', raw, one', filled, found, same⟩ :=
    subject_recovered nonempty carries one whole split rfl enclosed even
  rw [← same]
  exact ofText_of_single one' filled found

def outline (c : Command) : Bool × List (Kind × Nat × List Char) :=
  (c.error.isNone, c.nodes.map fun n => (n.kind, n.position, n.content))

theorem exists_of_outline {limit : Int} {source content : List Char} {x y : Kind × Nat × List Char}
    {kind : Kind} {position : Nat}
    (read : (commandsWithin limit source).map outline = [(true, [x, y, (kind, position, content)])]) :
    ∃ c a b n, commandsWithin limit source = [c] ∧ c.error = none ∧ c.nodes = [a, b, n] ∧
      n.kind = kind ∧ n.position = position ∧ n.content = content := by
  obtain ⟨c, one, facts⟩ := List.map_eq_singleton_iff.1 read
  obtain ⟨whole, kinds⟩ := Prod.mk.inj facts
  simp only [List.map_eq_cons_iff, List.map_eq_nil_iff] at kinds
  obtain ⟨a, _, nodes, _, b, _, rfl, _, n, _, rfl, last, rfl⟩ := kinds
  obtain ⟨same, place⟩ := Prod.mk.inj last
  obtain ⟨start, text⟩ := Prod.mk.inj place
  exact ⟨c, a, b, n, one, Option.isNone_iff_eq_none.1 whole, nodes, same, start, text⟩

def bracketed (s : String) : List Char :=
  List.replicate 65 '[' ++ s.toList ++ List.replicate 65 ']'

theorem spaced_bracketed :
    Message.Spaced 990 (bracketed "\\\n  \"a\"") (bracketed "\"a\"") := by
  have decoded : (Json.decode 990 (Message.unescape (bracketed "\\\n  \"a\""))).toOption.isSome := by
    decide +kernel
  have raw : Message.unescape (bracketed "\\\n  \"a\"") = List.replicate 65 '[' ++
      ' ' :: ' ' :: '"' :: (['a', '"'] ++ (List.replicate 65 ']' ++ [])) := by decide +kernel
  have content : Message.unescape (bracketed "\"a\"") = List.replicate 65 '[' ++
      '"' :: (['a', '"'] ++ (List.replicate 65 ']' ++ [])) := by decide +kernel
  constructor
  · cases found : Json.decode 990 (Message.unescape (bracketed "\\\n  \"a\"")) with
    | error e =>
        rw [found] at decoded
        cases decoded
    | ok v => exact ⟨v, rfl⟩
  · rw [raw, content]
    have last : Json.Thins (List.replicate 65 ']' ++ []) (List.replicate 65 ']' ++ []) :=
      Json.Thins.none.append_left (by simp)
    have closing : Json.Closing ['a', '"'] := .character (by decide) (by decide) .quote
    have string := Json.Thins.string closing last
    exact ((string.drop rfl).drop rfl).append_left (by simp)

theorem ofText_recovered_indented :
    (commands ("tellraw @s ".toList ++ bracketed "\\\n  \"a\"")).all (·.error.isSome) ∧
    ∃ c a b n, commandsWithin 65 ("tellraw @s ".toList ++ bracketed "\\\n  \"a\"") = [c] ∧
      c.error = none ∧ c.nodes = [a, b, n] ∧ n.kind.Enclosed ∧
      ofText .standard Template.standard ("tellraw @s ".toList ++ bracketed "\\\n  \"a\"") =
        some <$> ofMessage .standard n.content := by
  refine ⟨by decide +kernel, ?_⟩
  have read : (commandsWithin 65 ("tellraw @s ".toList ++ bracketed "\\\n  \"a\"")).map outline =
      [(true, [(.literal, 0, "tellraw".toList), (.selector, 8, "@s".toList),
        (.array, 11, bracketed "\"a\"")])] := by decide +kernel
  obtain ⟨c, a, b, n, one, whole, nodes, kind, position, content⟩ := exists_of_outline read
  have closed : (Text.trimEnd ("tellraw @s ".toList ++ bracketed "\\\n  \"a\"")).getLast? ≠
      some '\\' := by decide +kernel
  have tail : (Text.trimEnd ("tellraw @s ".toList ++ bracketed "\\\n  \"a\"")).drop 11 =
      bracketed "\\\n  \"a\"" := by decide +kernel
  have even : Even .standard ("tellraw @s ".toList ++ bracketed "\\\n  \"a\"") n := by
    refine ⟨closed, .inr ?_⟩
    rw [position, tail, content]
    exact spaced_bracketed
  exact ⟨c, a, b, n, one, whole, nodes, .inl kind,
    ofText_recovered one whole nodes (.inl kind) fun _ _ _ => even⟩

/-- The indent of a continued line is in the text that is recovered, not in the content of the
node. -/
theorem not_ofText_recovered : ∃ limit source c a b n,
    commandsWithin limit ("tellraw @s ".toList ++ source) = [c] ∧ c.error = none ∧
    c.nodes = [a, b, n] ∧ n.kind.Enclosed ∧
    ofText .standard Template.standard ("tellraw @s ".toList ++ source) ≠
      some <$> ofMessage .standard n.content := by
  have read : (commandsWithin 65 ("tellraw @s ".toList ++ bracketed "\"a\\\n  b\"")).map outline =
      [(true, [(.literal, 0, "tellraw".toList), (.selector, 8, "@s".toList),
        (.array, 11, bracketed "\"ab\"")])] := by decide +kernel
  obtain ⟨c, a, b, n, one, whole, nodes, kind, _, content⟩ := exists_of_outline read
  have node : ofMessage .standard (bracketed "\"ab\"") = .ok (.text (Text.ofString "ab")) := by
    decide +kernel
  have line : ∀ t, ofText .standard Template.standard
      ("tellraw @s ".toList ++ bracketed "\"a\\\n  b\"") = .ok (some (.text t)) →
        t ≠ Text.ofString "ab" := by decide +kernel
  refine ⟨65, bracketed "\"a\\\n  b\"", c, a, b, n, one, whole, nodes, .inl kind, fun same => ?_⟩
  rw [content, node] at same
  exact line _ same rfl

end Preview
end ChatPreview
