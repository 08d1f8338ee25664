import ChatPreview.Proofs.Component.Formats
import ChatPreview.Proofs.Message.Unescape

namespace ChatPreview
open Text

namespace Json

def Unmarked (x : Char) : Prop := x ≠ '"' ∧ x ≠ '\\' ∧ 0x1f < x.toNat

theorem readString_append_left {opening pos : Nat} (run : List Char) {s : List Char}
    (unmarked : ∀ x ∈ run, Unmarked x) : readString opening pos (run ++ s) =
      (readString opening (pos + run.length) s).map fun (t, c) => (ofChars run ++ t, c) := by
  induction run generalizing pos with
  | nil =>
      change readString opening pos s = (readString opening pos s).map fun (t, c) => (t, c)
      cases readString opening pos s <;> rfl
  | cons x run ih =>
      obtain ⟨noQuote, noBackslash, ink⟩ := unmarked x List.mem_cons_self
      rw [List.cons_append, readString, if_neg noQuote, if_neg noBackslash,
        if_neg (Nat.not_le_of_lt ink), ih fun y member => unmarked y (List.mem_cons_of_mem x member),
        List.length_cons, Nat.add_right_comm, Nat.add_assoc pos]
      cases readString opening (pos + (run.length + 1)) s <;> rfl

theorem readValue_string {levels : Nat} {c : Cursor} {s : List Char} (opens : c.rest = '"' :: s) :
    readValue levels c = (readString c.pos (c.pos + 1) s).map fun (t, d) => (.string t, d) := by
  cases levels <;>
    · rw [readValue, readOne.eq_def, opens]
      rfl

theorem plain_of_unmarked {s : List Char} (unmarked : ∀ x ∈ s, Unmarked x) : Plain s := by
  intro x member
  obtain ⟨_, _, ink⟩ := unmarked x member
  refine ⟨?_, ?_, ?_⟩
  all_goals
    rintro rfl
    exact absurd ink (by decide)

theorem unmarked_of_isDigit {x : Char} (digit : x.isDigit) : Unmarked x := by
  rw [Char.isDigit, Bool.and_eq_true, decide_eq_true_eq, decide_eq_true_eq] at digit
  refine ⟨?_, ?_, Nat.lt_of_lt_of_le (by decide) (UInt32.le_iff_toNat_le.1 digit.1)⟩
  · rintro rfl
    exact absurd digit (by decide)
  · rintro rfl
    exact absurd digit (by decide)

end Json

namespace Preview

def translateMessage (format : List Char) : List Char :=
  "\x7b\"translate\":\"".toList ++ (format ++ ['"', '\x7d'])

theorem decode_translate {levels : Nat} {format : List Char}
    (unmarked : ∀ x ∈ format, Json.Unmarked x) :
    Json.decode (levels + 1) (translateMessage format) =
      .ok (.object [(ofString "translate", .string (ofChars format))]) := by
  have key : Json.readKey ⟨1, "\"translate\":\"".toList ++ (format ++ ['"', '\x7d'])⟩ =
      .ok (ofString "translate", ⟨13, '"' :: (format ++ ['"', '\x7d'])⟩) := by
    simp [Json.readKey, Json.readString, Json.more, Except.map, ofString, ofChars, Json.skipSpace,
      Cursor.skipWhile, Cursor.advance, Json.isSpace]
  have value : Json.readValue levels ⟨13, '"' :: (format ++ ['"', '\x7d'])⟩ =
      .ok (.string (ofChars format), ⟨14 + format.length + 1, ['\x7d']⟩) := by
    rw [Json.readValue_string rfl, Json.readString_append_left format unmarked,
      Json.readString, if_pos rfl]
    simp [Except.map]
  have members : Json.readMembers (Json.readValue levels) []
      ⟨1, "\"translate\":\"".toList ++ (format ++ ['"', '\x7d'])⟩ =
      .ok ([(ofString "translate", .string (ofChars format))], ⟨14 + format.length + 2, []⟩) := by
    rw [Json.readMembers, key]
    simp only
    rw [value]
    simp [Json.skipSpace, Cursor.skipWhile, Cursor.advance, Json.isSpace, Members.put]
  have whole : Json.readValue (levels + 1) ⟨0, translateMessage format⟩ =
      .ok (.object [(ofString "translate", .string (ofChars format))],
        ⟨14 + format.length + 2, []⟩) := by
    rw [Json.readValue]
    generalize Json.readValue levels = item at members
    change (Json.readMembers item []
      ⟨1, "\"translate\":\"".toList ++ (format ++ ['"', '\x7d'])⟩).map _ = _
    rw [members]
    rfl
  have start : Json.skipSpace (.start (translateMessage format)) = ⟨0, translateMessage format⟩ := rfl
  have noMark : (translateMessage format).head? ≠ some '\uFEFF' := by
    change some '\x7b' ≠ some '\uFEFF'
    decide
  rw [Json.decode, if_neg noMark, start, whole]
  rfl

theorem plain_translate {format : List Char} (unmarked : ∀ x ∈ format, Json.Unmarked x) :
    Plain (translateMessage format) := by
  apply Plain.append (by simp [Plain])
  exact Plain.append (Json.plain_of_unmarked unmarked) (by simp [Plain])

theorem ofMessage_translate {format : List Char} (unmarked : ∀ x ∈ format, Json.Unmarked x) :
    ofMessage .standard (translateMessage format) =
      ((Format.apply (ofChars format) []).mapError .digits).map .text := by
  have plain := plain_translate unmarked
  rw [ofMessage, Message.read, Message.unescape_of_plain plain,
    show Host.standard.decodedLevels = 989 + 1 from rfl, decode_translate unmarked]
  change (((Component.content (.translatable (ofChars format) none none) none).interpret).mapError
    Halt.digits >>= fun t => pure (Preview.text t)) = _
  change ((Format.apply (ofChars format) [] >>= fun t => pure (t ++ [])).mapError Halt.digits >>=
    fun t => pure (Preview.text t)) = _
  cases Format.apply (ofChars format) [] with
  | error e => rfl
  | ok t => exact congrArg (fun t => Except.ok (Preview.text t)) (List.append_nil t)

theorem ofMessage_marker {x : Char} {digits : List Char} (all : ∀ y ∈ x :: digits, y.isDigit)
    (positive : x ≠ '0') : ofMessage .standard (translateMessage ('%' :: x :: digits ++ ['$', 's'])) =
      ((readDigits (x :: digits)).mapError .digits).map fun n => .text (Format.argument [] (n - 1)) := by
  have unmarked : ∀ y ∈ '%' :: x :: digits ++ ['$', 's'], Json.Unmarked y := by
    have around : ∀ y ∈ ['%', '$', 's'], Json.Unmarked y := by simp [Json.Unmarked]
    intro y member
    by_cases inside : y ∈ x :: digits
    · exact Json.unmarked_of_isDigit (all y inside)
    · apply around
      cases member with
      | head => exact List.mem_cons_self
      | tail _ later =>
          rcases List.mem_append.1 later with digit | mark
          · exact absurd digit inside
          · exact List.mem_cons_of_mem '%' mark
  rw [ofMessage_translate unmarked, Format.apply, Format.pieces_marker all positive]
  change ((readDigits (x :: digits) >>= fun n =>
    pure (Format.argument [] (n - 1) ++ [])).mapError Halt.digits).map _ = _
  cases readDigits (x :: digits) with
  | error e => rfl
  | ok n => exact congrArg (fun t => Except.ok (Preview.text t)) (List.append_nil _)

end Preview
end ChatPreview
