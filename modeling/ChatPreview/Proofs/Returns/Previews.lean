import ChatPreview.Proofs.Line.Tiles
import ChatPreview.Proofs.Nodes.Equations
import ChatPreview.Proofs.Preview.Stopped
import ChatPreview.Proofs.Returns.Commands

namespace ChatPreview
open Text Scan Token

/-! ## Where reading stops -/

section
variable {limit : Int} {c : Cursor}

theorem head_skipSpace (c : Cursor) : ∀ x ∈ (skipSpace c).rest.head?, isBlank x = false := by
  rw [skipSpace_eq]
  cases found : Continuation.rest? (c.skipWhile isBlank).rest with
  | none =>
      rw [Cursor.skipWhile_rest]
      exact ink_of_dropWhile c.rest
  | some r =>
      rcases rest?_eq_some.1 found with ⟨_, v, _, _, rfl⟩
      exact ink_of_dropWhile v

theorem ink_of_fails {x : Char} {s : List Char} (split : c.rest = x :: s)
    (failed : (item endsWord (inside limit limit.toNat) c).Fails) (inside : ¬c.atLineEnd)
    (noReturn : x ≠ '\r') (ink : isBlank x = false) : isSpace x = false := by
  have noWord : (word endsWord c).Fails := fails_of_firstOf failed _ (by simp)
  by_contra space
  rw [Bool.not_eq_false] at space
  have noQuote : isQuote x = false := by
    by_contra quote
    rw [Bool.not_eq_false, isQuote_iff] at quote
    rcases quote with rfl | rfl <;> cases space
  have feed := Returned.feed_of_inside inside split
  have free : endsWord x = false := by
    by_contra ends
    rw [Bool.not_eq_false, endsWord, List.contains_iff_mem] at ends
    simp only [List.mem_cons, List.not_mem_nil, or_false] at ends
    rcases ends with rfl | rfl | rfl | rfl | rfl | rfl | rfl | rfl | rfl
    · cases ink
    · cases ink
    · exact noReturn rfl
    · exact feed rfl
    all_goals cases space
  have starts : Continuation.starts (x :: s) = false := by
    apply starts_of_solid
    intro member
    simp only [List.mem_cons, List.not_mem_nil, or_false] at member
    rcases member with rfl | rfl | rfl | rfl | rfl
    · cases ink
    · cases ink
    · exact feed rfl
    · exact noReturn rfl
    · cases space
  have chars : wordChars endsWord c.rest ≠ [] := by
    rw [split, wordChars, free, starts]
    exact List.cons_ne_nil _ _
  have quotes : c.peek.any isQuote = false := by
    rw [Cursor.peek, split]
    simpa using noQuote
  rcases noWord with ⟨e, d, failed⟩
  rw [word_eq_ok.2 ⟨quotes, chars, rfl, rfl⟩] at failed
  cases failed

theorem Command.failed_of_readNodes {e : Failure} (stopped : (readNodes limit c).error = some e) :
    ∃ d x s, c.Reaches d ∧ d.Reaches (readNodes limit c).next ∧ e.offset = d.pos ∧
      d.rest = x :: s ∧ ¬d.atLineEnd ∧ Text.isBlank x = false ∧ (x ≠ '\r' → isSpace x = false) := by
  fun_induction readNodes limit c with
  | case1 => cases stopped
  | case2 c c₁ inside e' c₂ failed =>
      cases stopped
      rcases top_fail failed with ⟨rfl, rfl⟩
      cases split : c₁.rest with
      | nil => exact absurd (atLineEnd_iff.2 (.inl split)) inside
      | cons x s =>
          have ink := head_skipSpace c x (by rw [split]; rfl)
          have none : (item endsWord (Token.inside limit limit.toNat) c₁).Fails := by
            unfold top at failed
            split at failed
            · cases failed
            · exact ⟨_, _, ‹_›⟩
          exact ⟨c₁, x, s, reaches_skipSpace c, (skipLine_spec c₁).1, rfl, split, inside, ink,
            fun other => ink_of_fails split none inside other ink⟩
  | case3 c c₁ inside n c₂ read body ih =>
      have ahead := (reaches_skipSpace c).trans (consumes_top limit read).1
      rcases ih stopped with ⟨d, x, s, further, found⟩
      exact ⟨d, x, s, ahead.trans further, found⟩

theorem Command.error_of_readNodes {e : Failure} (noReturn : '\r' ∉ c.rest)
    (stopped : (readNodes limit c).error = some e) :
    ∃ d x t, c.Reaches d ∧ d.Reaches (readNodes limit c).next ∧ e.offset = d.pos ∧
      d.upTo (readNodes limit c).next = x :: t ∧ isSpace x = false := by
  rcases failed_of_readNodes stopped with ⟨d, x, s, ahead, last, offset, split, inside, _, space⟩
  have other : x ≠ '\r' := by
    rintro rfl
    exact noReturn (ahead.suffix.subset (by rw [split]; exact List.mem_cons_self))
  have whole := last.upTo_append
  cases text : d.upTo (readNodes limit c).next with
  | nil =>
      -- the line would end where reading stopped
      rw [text, List.nil_append] at whole
      have ended := (readNodes_spec limit c).2
      rw [last.eq_of_rest_eq (.refl d) whole] at ended
      exact absurd ended inside
  | cons y t =>
      rw [text, split] at whole
      rcases List.cons.inj whole with ⟨rfl, _⟩
      exact ⟨d, y, t, ahead, last, offset, text, space other⟩

theorem Command.position_le_error {e : Failure} (noReturn : '\r' ∉ c.rest)
    (stopped : (readLine limit c).1.error = some e) :
    ((readLine limit c).1.position : Int) ≤ e.offset := by
  have dollar := reaches_pastDollar c
  have free : '\r' ∉ (pastDollar c).rest := fun member => noReturn (dollar.suffix.subset member)
  rcases error_of_readNodes free stopped with ⟨d, x, t, ahead, last, offset, text, space⟩
  have onward := dollar.trans ahead
  have distance : c.pos + (c.upTo d).length = d.pos := by
    have whole := congrArg List.length onward.upTo_append
    have total := onward.length_add
    rw [List.length_append] at whole
    omega
  have split : c.upTo (readNodes limit (pastDollar c)).next = c.upTo d ++ x :: t := by
    apply (onward.trans last).upTo_eq
    rw [← text, List.append_assoc, last.upTo_append, onward.upTo_append]
  have first : ((c.upTo d ++ x :: t).takeWhile isSpace).length ≤ (c.upTo d).length := by
    rw [List.takeWhile_append, List.takeWhile_cons_of_neg (by simp [space]), List.append_nil]
    split
    · exact Nat.le_refl _
    · exact (List.takeWhile_prefix isSpace).length_le
  rw [offset, readLine, split]
  split
  · change (c.pos : Int) ≤ d.pos
    omega
  · change ((c.pos + ((c.upTo d ++ x :: t).takeWhile isSpace).length : Nat) : Int) ≤ d.pos
    omega

end

/-- In a source without carriage returns an error stands in the span of its command. -/
theorem position_le_error {limit : Int} {source : List Char} {c : Command} {e : Failure}
    (noReturn : '\r' ∉ source) (among : c ∈ commandsWithin limit source)
    (stopped : c.error = some e) : (c.position : Int) ≤ e.offset := by
  rcases exists_lines source with ⟨ls, lines⟩
  have commands := (commandsFrom_lines limit lines 0).1
  change commandsWithin limit source = _ at commands
  rw [commands] at among
  rcases List.mem_map.1 among with ⟨line, listed, rfl⟩
  rcases placed_within lines listed with ⟨before, after, split, _⟩
  have free : '\r' ∉ (line.skipWhile Text.isBlank).rest := fun member => by
    apply noReturn
    rw [split]
    have inLine := (line.reaches_skipWhile Text.isBlank).suffix.subset member
    simp [inLine]
  rw [Command.read] at stopped ⊢
  split at stopped
  · cases stopped
  · rename_i code
    rw [if_neg code]
    exact Command.position_le_error free stopped

/-! ## Messages -/

/-- Nodes that fit alike, with the same message. -/
def SaysAlike (host : Host) (n m : Node) : Prop :=
  Template.FitsAlike n m ∧ Preview.ofMessage host m.content = Preview.ofMessage host n.content

theorem saysAlike_relocate (host : Host) (move : Nat → Nat) (n : Node) :
    SaysAlike host n (n.relocate move) := by
  refine ⟨⟨n.relocate_kind move, fun _ => n.relocate_content move⟩, ?_⟩
  rw [n.relocate_content move]

theorem saysAlike_relocateAll (host : Host) (move : Nat → Nat) (nodes : List Node) :
    List.Forall₂ (SaysAlike host) nodes (nodes.map (·.relocate move)) := by
  rw [List.forall₂_map_right_iff, List.forall₂_same]
  exact fun n _ => saysAlike_relocate host move n

namespace Preview
open Template (Catalog)

def returned (source : List Char) : Preview → Preview
  | failure (.trailing e) => failure (.trailing (e.returned source))
  | p => p

def SubjectsAlike (host : Host) (source : List Char) (s t : Subject) : Prop :=
  ofSubject host t = (ofSubject host s).map (·.returned source)

section
variable {host : Host} {source : List Char} {limit : Int} {c : Command} {e : Failure}

theorem ofMessage_returned (host : Host) (source raw : List Char) :
    (ofMessage host raw).map (·.returned source) = ofMessage host raw := by
  rw [ofMessage]
  cases Message.read host raw with
  | error e => rfl
  | ok outcome =>
      cases outcome with
      | error fault => rfl
      | ok component =>
          cases shown : component.interpret with
          | error e => simp only [Bind.bind, Except.bind, shown, Except.mapError, Except.map]
          | ok text =>
              simp only [Bind.bind, Except.bind, shown, Except.mapError, Except.map, Pure.pure,
                Except.pure, returned]

theorem subjectsAlike_message {raw raw' : List Char} (same : ofMessage host raw' = ofMessage host raw) :
    SubjectsAlike host source (.message raw) (.message raw') := by
  rw [SubjectsAlike, ofSubject, ofSubject, ofMessage_returned, same]

theorem ofMessage_withReturns {raw : List Char} (noReturn : '\r' ∉ raw) :
    ofMessage host (withReturns raw) = ofMessage host raw := by
  rw [ofMessage, ofMessage, Message.read, Message.read, unescape_withReturns noReturn]

theorem opens_cons (x : Char) (s : List Char) : opens (x :: s) = opens [x] := by
  unfold opens
  split <;> split <;> simp_all

theorem opens_withReturns (s : List Char) : opens (withReturns s) = opens s := by
  cases s with
  | nil => rfl
  | cons x s =>
      by_cases feed : x = '\n'
      · rw [feed]
        rfl
      · rw [withReturns_cons feed, opens_cons, opens_cons x s]

theorem opens_not_literal {s : List Char} {kind : Kind} (opened : opens s = some kind) :
    kind ≠ .literal := by
  unfold opens at opened
  split at opened <;> cases opened <;> exact nofun

theorem tailFrom_returned (noReturn : '\r' ∉ source) (among : c ∈ commandsWithin limit source)
    (stopped : c.error = some e) :
    '\r' ∉ tailFrom c.raw (e.offset - c.position) ∧
      tailFrom (c.returned source).raw ((e.returned source).offset - (c.returned source).position) =
        withReturns (tailFrom c.raw (e.offset - c.position)) := by
  have raw := raw_eq_extract among
  have ahead := position_le_error noReturn among stopped
  have raw' : (c.returned source).raw = (withReturns source).extract
      (c.returned source).position (c.returned source).stop := by
    change withReturns c.raw = (withReturns source).extract (placeIn source c.position)
      (placeIn source c.stop)
    rw [raw, extract_withReturns]
  have ahead' : ((c.returned source).position : Int) ≤ (e.returned source).offset := by
    have le : c.position ≤ e.offset.toNat := by omega
    exact Int.ofNat_le.2 (placeIn_mono le)
  rw [tailFrom_eq_extract raw' ahead', tailFrom_eq_extract raw ahead]
  constructor
  · intro member
    rw [List.extract_eq_take_drop] at member
    exact noReturn (List.mem_of_mem_drop (List.mem_of_mem_take member))
  · exact extract_withReturns source e.offset.toNat c.stop

theorem recovered_returned (host : Host) (noReturn : '\r' ∉ source)
    (among : c ∈ commandsWithin limit source)
    (stopped : c.error = some e) : Option.Rel (List.Forall₂ (SaysAlike host)) (recovered? c e)
      (recovered? (c.returned source) (e.returned source)) := by
  have ⟨free, tail⟩ := tailFrom_returned noReturn among stopped
  rw [recovered?, recovered?, tail, opens_withReturns]
  cases opened : opens (tailFrom c.raw (e.offset - c.position)) with
  | none => exact .none
  | some kind =>
      refine .some (List.rel_append ?_ (.cons ?_ .nil))
      · exact saysAlike_relocateAll host (placeIn source) c.nodes
      · exact ⟨⟨rfl, fun literal => absurd literal (opens_not_literal opened)⟩,
          ofMessage_withReturns free⟩

theorem messageOf_alike (catalog : Catalog) {nodes nodes' : List Node}
    (each : List.Forall₂ (SaysAlike host) nodes nodes') :
    Option.Rel (fun raw raw' => ofMessage host raw' = ofMessage host raw) (messageOf catalog nodes)
      (messageOf catalog nodes') := by
  have found := Template.Catalog.match?_alike And.left catalog true each
  rw [messageOf, messageOf]
  generalize catalog.match? true nodes = m at found
  generalize catalog.match? true nodes' = m' at found
  cases found with
  | none => exact .none
  | some related => exact related.message? And.right

theorem rel_map {α β γ δ : Type} {A : α → β → Prop} {C : γ → δ → Prop} {f : α → γ} {g : β → δ}
    {o : Option α} {o' : Option β} (related : Option.Rel A o o')
    (each : ∀ {a b}, A a b → C (f a) (g b)) : Option.Rel C (o.map f) (o'.map g) := by
  cases related with
  | none => exact .none
  | some first => exact .some (each first)

/-- The unread text completes the command in both sources, or in neither. -/
theorem match_returned (host : Host) (catalog : Catalog) (noReturn : '\r' ∉ source)
    (among : c ∈ commandsWithin limit source) (stopped : c.error = some e) :
    Option.Rel (Template.MatchesAlike (SaysAlike host))
      ((recovered? c e).bind (catalog.match? true))
      ((recovered? (c.returned source) (e.returned source)).bind (catalog.match? true)) := by
  have recovered := recovered_returned host noReturn among stopped
  generalize recovered? c e = nodes at recovered
  generalize recovered? (c.returned source) (e.returned source) = nodes' at recovered
  cases recovered with
  | none => exact .none
  | some each => exact Template.Catalog.match?_alike And.left catalog true each

theorem subject_returned (host : Host) (catalog : Catalog) (noReturn : '\r' ∉ source)
    (among : c ∈ commandsWithin limit source) :
    Option.Rel (SubjectsAlike host source) (subject catalog c)
      (subject catalog (c.returned source)) := by
  have message : Option.Rel (fun raw raw' => ofMessage host raw' = ofMessage host raw)
      (messageOf catalog c.nodes) (messageOf catalog (c.returned source).nodes) :=
    messageOf_alike catalog (saysAlike_relocateAll host (placeIn source) c.nodes)
  have error : (c.returned source).error = c.error.map (·.returned source) := rfl
  rw [subject, subject, error]
  cases stopped : c.error with
  | none => exact rel_map message subjectsAlike_message
  | some e =>
      have unread := match_returned host catalog noReturn among stopped
      simp only [Option.map_some]
      generalize (recovered? c e).bind (catalog.match? true) = found at unread
      generalize (recovered? (c.returned source) (e.returned source)).bind (catalog.match? true) =
        found' at unread
      cases unread with
      | none => exact rel_map message fun _ => rfl
      | some related => exact rel_map (related.message? And.right) subjectsAlike_message

theorem ofCommand_returned (catalog : Catalog) (noReturn : '\r' ∉ source)
    (among : c ∈ commandsWithin limit source) :
    ofCommand host catalog (c.returned source) =
      (ofCommand host catalog c).map (Option.map (·.returned source)) := by
  have subjects := subject_returned host catalog noReturn among
  rw [ofCommand, ofCommand]
  generalize subject catalog c = s at subjects
  generalize subject catalog (c.returned source) = t at subjects
  cases subjects with
  | none => rfl
  | @some s t alike =>
      change (ofSubject host t).map some = ((ofSubject host s).map some).map _
      rw [alike]
      cases ofSubject host s <;> rfl

end

theorem ofCommands_returned {host : Host} (catalog : Catalog) (source : List Char) {cs : List Command}
    (each : ∀ c ∈ cs, ofCommand host catalog (c.returned source) =
      (ofCommand host catalog c).map (Option.map (·.returned source))) :
    ofCommands host catalog (cs.map (·.returned source)) =
      (ofCommands host catalog cs).map (List.map fun p =>
        (p.1.returned source, p.2.returned source)) := by
  induction cs with
  | nil => rfl
  | cons c cs ih =>
      have rest := ih fun d member => each d (List.mem_cons_of_mem c member)
      rw [List.map_cons, ofCommands, ofCommands, each c List.mem_cons_self, rest]
      cases ofCommand host catalog c with
      | error e => rfl
      | ok preview =>
          cases ofCommands host catalog cs with
          | error e => rfl
          | ok previews => cases preview <;> rfl

theorem ofDocument_returned (host : Host) (catalog : Catalog) {source : List Char}
    (noReturn : '\r' ∉ source) :
    ofDocument host catalog (withReturns source) = (ofDocument host catalog source).map
      (List.map fun p => (p.1.returned source, p.2.returned source)) := by
  rw [ofDocument, ofDocument, commands, commands, commandsWithin_withReturns nestingLimit noReturn]
  exact ofCommands_returned catalog source fun c among => ofCommand_returned catalog noReturn among

end Preview

/-- What a source and the same source with carriage returns have in common. -/
structure ReadAlike (source : List Char) : Prop where
  commands (limit : Int) : commandsWithin limit (withReturns source) =
    (commandsWithin limit source).map (·.returned source)
  blank (c : Command) : (c.returned source).isBlank = c.isBlank
  line (offset : Int) : (locate (withReturns source) (placeIn source offset.toNat)).line =
    (locate source offset).line
  column (offset : Int) : (locate (withReturns source) (placeIn source offset.toNat)).column =
    (locate source offset).column
  previews (host : Host) (catalog : Template.Catalog) :
    Preview.ofDocument host catalog (withReturns source) =
    (Preview.ofDocument host catalog source).map
      (List.map fun p => (p.1.returned source, p.2.returned source))

/-- Carriage returns before the line feeds of a source change nothing but offsets: its commands are
the same, at places of the same line and column, and so are their previews. -/
theorem readAlike_of_noReturn {source : List Char} (noReturn : '\r' ∉ source) :
    ReadAlike source where
  commands limit := commandsWithin_withReturns limit noReturn
  blank c := isEmpty_withReturns c.raw
  line offset := (locate_withReturns source offset).1
  column offset := (locate_withReturns source offset).2
  previews host catalog := Preview.ofDocument_returned host catalog noReturn

/-- A continuation before an array that is not closed, and a string that is not. -/
theorem readAlike_of_noReturn_open : '\r' ∉ "tellraw @s \\\n  [1,\nsay \"hi".toList ∧
    ReadAlike "tellraw @s \\\n  [1,\nsay \"hi".toList := by
  have noReturn : '\r' ∉ "tellraw @s \\\n  [1,\nsay \"hi".toList := by decide
  exact ⟨noReturn, readAlike_of_noReturn noReturn⟩

end ChatPreview
