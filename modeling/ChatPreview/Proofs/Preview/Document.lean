import ChatPreview.Proofs.Message.Numbers
import ChatPreview.Proofs.Message.Translate

namespace ChatPreview
open Text

/-- What halts the reading of a message: the digits of a number, in its text or in a marker of the
component that it describes, or the depth of a value that its error would show. -/
inductive Message.Halts (host : Host) (raw : List Char) : Halt → Prop where
  | number {e : DigitLimit} (run : Json.Overrun (unescape raw) e.count) : Halts host raw (.digits e)
  | marker {c : Component} {digits : List Char} {e : DigitLimit}
      (described : read host raw = .ok (.ok c)) (member : digits ∈ c.numbers)
      (length : digits.length = e.count) (long : maxDigits < e.count) : Halts host raw (.digits e)
  | shown {v declared : Value} {e : Shape.Error}
      (decoded : Json.decode host.decodedLevels (unescape raw) = .ok v)
      (rejected : Component.build host.checks v = .error e) (shows : e.fault.shown? = some declared)
      (deep : host.shownLevels v e.path < declared.levels) : Halts host raw .tooDeep

namespace Preview
open Template (Catalog)

variable {host : Host} {catalog : Catalog} {c : Command} {why : Halt}

theorem deep_of_not_shows {v : Value} {e : Shape.Error} (hidden : ¬Message.shows host v e) :
    ∃ declared, e.fault.shown? = some declared ∧ host.shownLevels v e.path < declared.levels := by
  rw [Message.shows] at hidden
  cases shown : e.fault.shown? with
  | none =>
      rw [shown] at hidden
      exact absurd rfl hidden
  | some declared =>
      rw [shown, Option.all_some, decide_eq_true_eq] at hidden
      exact ⟨declared, rfl, Nat.lt_of_not_le hidden⟩

theorem halts_of_read {raw : List Char} (stopped : Message.read host raw = .error why) :
    Message.Halts host raw why := by
  rw [Message.read] at stopped
  split at stopped
  · rename_i found
    cases stopped
    exact .number (Json.overrun_of_decode (Message.plain_unescape raw) found)
  · cases stopped
  · rename_i v decoded
    rw [Message.build] at stopped
    split at stopped
    · cases stopped
    · rename_i e rejected
      split at stopped
      · cases stopped
      · rename_i hidden
        cases stopped
        obtain ⟨declared, shown, deep⟩ := deep_of_not_shows hidden
        exact .shown decoded rejected shown deep

theorem halts_of_message {raw : List Char} (stopped : ofMessage host raw = .error why) :
    Message.Halts host raw why := by
  rw [ofMessage] at stopped
  cases described : Message.read host raw with
  | error other =>
      rw [described] at stopped
      cases stopped
      exact halts_of_read described
  | ok outcome =>
      rw [described] at stopped
      cases outcome with
      | error fault => cases stopped
      | ok component =>
          have rests := Component.restsOn_interpret component
          cases shown : component.interpret with
          | ok text =>
              simp only [Bind.bind, Except.bind, shown, Except.mapError] at stopped
              cases stopped
          | error e =>
              simp only [Bind.bind, Except.bind, shown, Except.mapError] at stopped
              cases stopped
              rw [shown] at rests
              obtain ⟨digits, member, length, long⟩ := rests
              exact .marker described member length long

theorem halts_of_command (stopped : ofCommand host catalog c = .error why) :
    ∃ raw, subject catalog c = some (.message raw) ∧ Message.Halts host raw why := by
  cases found : subject catalog c with
  | none =>
      rw [ofCommand_of_none found] at stopped
      cases stopped
  | some s =>
      rw [ofCommand_of_some found] at stopped
      cases s with
      | trailing failure => cases stopped
      | message raw => exact ⟨raw, rfl, halts_of_message (Json.map_eq_error stopped)⟩

def bears (catalog : Catalog) (c : Command) : Bool := (subject catalog c).isSome

theorem isSome_of_ofCommand {preview : Option Preview} (read : ofCommand host catalog c = .ok preview) :
    preview.isSome = bears catalog c := by
  cases found : subject catalog c with
  | none =>
      rw [ofCommand_of_none found] at read
      cases read
      rw [bears, found]
      rfl
  | some s =>
      rw [ofCommand_of_some found] at read
      cases shown : ofSubject host s with
      | error other =>
          rw [shown] at read
          cases read
      | ok preview =>
          rw [shown] at read
          cases read
          rw [bears, found]
          rfl

/-- Each command that carries a message, in order, with its preview. -/
structure Previewed (host : Host) (catalog : Catalog) (cs : List Command)
    (previews : List (Command × Preview)) : Prop where
  commands : previews.map Prod.fst = cs.filter (bears catalog)
  each : ∀ p ∈ previews, ofCommand host catalog p.1 = .ok (some p.2)

theorem Previewed.cons {cs : List Command} {previews : List (Command × Preview)}
    {preview : Option Preview} (first : ofCommand host catalog c = .ok preview)
    (rest : Previewed host catalog cs previews) :
    Previewed host catalog (c :: cs) ((preview.map (c, ·)).toList ++ previews) := by
  have carried := isSome_of_ofCommand first
  cases preview with
  | none =>
      constructor
      · rw [List.filter_cons, ← carried]
        exact rest.commands
      · exact rest.each
  | some preview =>
      constructor
      · rw [List.filter_cons, ← carried, ← rest.commands]
        rfl
      · intro p member
        cases member with
        | head => exact first
        | tail _ later => exact rest.each p later

/-- Commands are previewed unless the preview of one halts. -/
theorem ofCommands_previewed (host : Host) (catalog : Catalog) (cs : List Command) :
    (∃ previews, ofCommands host catalog cs = .ok previews ∧ Previewed host catalog cs previews) ∨
      ∃ why, ofCommands host catalog cs = .error why ∧
        ∃ c ∈ cs, ofCommand host catalog c = .error why := by
  induction cs with
  | nil => exact .inl ⟨[], rfl, rfl, by simp⟩
  | cons c cs ih =>
      cases first : ofCommand host catalog c with
      | error why =>
          refine .inr ⟨why, ?_, c, List.mem_cons_self, first⟩
          simp only [ofCommands, first, Bind.bind, Except.bind]
      | ok preview =>
          obtain ⟨previews, rest, previewed⟩ | ⟨why, rest, d, member, stopped⟩ := ih
          · refine .inl ⟨_, ?_, previewed.cons first⟩
            simp only [ofCommands, first, rest, Bind.bind, Except.bind, Pure.pure, Except.pure]
          · refine .inr ⟨why, ?_, d, List.mem_cons_of_mem c member, stopped⟩
            simp only [ofCommands, first, rest, Bind.bind, Except.bind]

/-- A document gives the preview of each command that carries a message, or one of the messages halts
its reading. -/
theorem ofDocument_previewed (host : Host) (catalog : Catalog) (source : List Char) :
    (∃ previews, ofDocument host catalog source = .ok previews ∧
      Previewed host catalog (commands source) previews) ∨
    ∃ why, ofDocument host catalog source = .error why ∧ ∃ c ∈ commands source, ∃ raw,
      subject catalog c = some (.message raw) ∧ Message.Halts host raw why := by
  obtain read | ⟨why, stopped, c, member, first⟩ :=
    ofCommands_previewed host catalog (commands source)
  · exact .inl read
  · exact .inr ⟨why, stopped, c, member, halts_of_command first⟩

/-- Where one message halts no command is previewed, in whatever line it stands. -/
theorem exists_error_of_message {source raw : List Char}
    (member : c ∈ commands source) (found : subject catalog c = some (.message raw))
    (stopped : ofMessage host raw = .error why) :
    ∃ other, ofDocument host catalog source = .error other := by
  obtain ⟨previews, _, previewed⟩ | ⟨other, error, _⟩ :=
    ofCommands_previewed host catalog (commands source)
  · have bearing : bears catalog c := by rw [bears, found, Option.isSome_some]
    have listed := List.mem_filter.2 ⟨member, bearing⟩
    rw [← previewed.commands] at listed
    obtain ⟨p, among, rfl⟩ := List.mem_map.1 listed
    have shown := previewed.each p among
    rw [ofCommand_of_some found, ofSubject, stopped] at shown
    cases shown
  · exact ⟨other, error⟩

instance (found : Option Subject) (raw : List Char) : Decidable (found = some (.message raw)) :=
  match found with
  | some (.message other) => decidable_of_iff (other == raw) (by simp)
  | some (.trailing _) => .isFalse (by simp)
  | none => .isFalse (by simp)

/-- A marker with one digit too many, and the next line has no preview either. -/
theorem ofDocument_overlong : ∃ e, ofDocument .standard Template.standard ("tellraw @s ".toList ++
    translateMessage ('%' :: '1' :: List.replicate maxDigits '1' ++ ['$', 's']) ++
      "\ntellraw @s \"later\"".toList) = .error e := by
  have found : ∃ c ∈ commands ("tellraw @s ".toList ++
      translateMessage ('%' :: '1' :: List.replicate maxDigits '1' ++ ['$', 's']) ++
        "\ntellraw @s \"later\"".toList), subject Template.standard c =
      some (.message (translateMessage ('%' :: '1' :: List.replicate maxDigits '1' ++ ['$', 's']))) := by
    decide +kernel
  obtain ⟨c, member, message⟩ := found
  have digits : ∀ x ∈ '1' :: List.replicate maxDigits '1', x.isDigit := by
    intro x member
    rw [← List.replicate_succ] at member
    rw [List.eq_of_mem_replicate member]
    rfl
  have stopped := ofMessage_marker digits (by decide)
  rw [readDigits, List.length_cons, List.length_replicate,
    if_pos (Nat.lt_succ_self maxDigits)] at stopped
  exact exists_error_of_message member message stopped

end Preview
end ChatPreview
