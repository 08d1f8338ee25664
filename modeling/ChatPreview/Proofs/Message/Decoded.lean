import ChatPreview.Proofs.Message.Spacing
import ChatPreview.Proofs.Message.Unescape
/-!
Messages that can be decoded as they stand: what is taken out of them before decoding is white space
between their tokens alone, so they have the same value after it.
-/
namespace ChatPreview.Json
open Text Message

/-- Strings without tabs and line ends, and between them neither quotes nor backslashes. -/
inductive Tokens : List Char → Prop where
  | none : Tokens []
  | character {x : Char} {s : List Char} (noQuote : x ≠ '"') (noBackslash : x ≠ '\\')
      (rest : Tokens s) : Tokens (x :: s)
  | string {q s : List Char} (closing : Closing q) (plain : Plain q) (rest : Tokens s) :
      Tokens ('"' :: (q ++ s))

/-! ## What a reader passes -/

section
variable {s t q : List Char} {x : Char}

theorem Tokens.append (first : Tokens s) (second : Tokens t) : Tokens (s ++ t) := by
  induction first with
  | none => exact second
  | character noQuote noBackslash _ ih => exact .character noQuote noBackslash ih
  | string closing plain _ ih =>
      rw [List.cons_append, List.append_assoc]
      exact .string closing plain ih

theorem tokens_of_run (clear : ∀ x ∈ s, x ≠ '"' ∧ x ≠ '\\') : Tokens s := by
  induction s with
  | nil => exact .none
  | cons x s ih =>
      obtain ⟨noQuote, noBackslash⟩ := clear x List.mem_cons_self
      exact .character noQuote noBackslash (ih fun y member => clear y (List.mem_cons_of_mem x member))

theorem plain_singleton (visible : x ≠ '\t' ∧ x ≠ '\r' ∧ x ≠ '\n') : Plain [x] :=
  List.forall_mem_singleton.2 visible

theorem plain_of_hexDigit {n : Nat} (digit : hexDigit? x = some n) :
    x ≠ '\t' ∧ x ≠ '\r' ∧ x ≠ '\n' := by
  refine ⟨?_, ?_, ?_⟩ <;>
    · rintro rfl
      cases digit

theorem plain_of_escaped {c : Char} (known : escaped? x = some c) : Plain [x] := by
  refine plain_singleton ⟨?_, ?_, ?_⟩ <;>
    · rintro rfl
      cases known

theorem plain_of_readNumeric {pos n : Nat} {p : CodePoint} (read : readNumeric pos s = .ok (p, n)) :
    Plain (s.take (n - 1)) := by
  have half {digits : List Char} {k : Nat} (value : hexValue? digits = some k) : Plain digits :=
    fun x member => plain_of_hexDigit (hexDigit_of_hexValue value x member).choose_spec
  obtain ⟨_, ⟨k, value⟩, rfl | ⟨rfl, digits, m, next, low⟩⟩ := readNumeric_cases read
  · exact half value
  · obtain ⟨w, split, _, rfl⟩ := nextEscape?_eq_some next
    have mark : Plain (['\\'] ++ ['u']) :=
      (plain_singleton (by decide)).append (plain_singleton (by decide))
    have parts : s.take 10 = s.take 4 ++ (['\\', 'u'] ++ w.take 4) := by
      rw [show 10 = 4 + 6 from rfl, List.take_add, split]
      rfl
    rw [show 11 - 1 = 10 from rfl, parts]
    exact (half value).append (mark.append (half low))

theorem plain_of_readEscape {opening pos n : Nat} {p : CodePoint}
    (read : readEscape opening pos s = .ok (p, n)) : Plain (s.take n) := by
  cases s with
  | nil => cases read
  | cons x s =>
      rw [readEscape] at read
      split at read
      · rename_i numeric
        have positive : 1 ≤ n := by
          obtain ⟨_, _, rfl | ⟨rfl, _⟩⟩ := readNumeric_cases read <;> decide
        obtain ⟨k, rfl⟩ := Nat.exists_eq_add_of_le' positive
        rw [List.take_succ_cons, numeric]
        have mark : Plain ['u'] := plain_singleton (by decide)
        exact mark.append (plain_of_readNumeric read)
      · split at read
        · rename_i c known
          cases read
          exact plain_of_escaped known
        · cases read

theorem plain_of_readString {opening pos : Nat} {u : Text} {d : Cursor}
    (read : readString opening pos s = .ok (u, d)) : ∃ q, s = q ++ d.rest ∧ Plain q := by
  fun_induction readString opening pos s generalizing u with
  | case1 => cases read
  | case2 pos s =>
      cases read
      exact ⟨['"'], rfl, plain_singleton (by decide)⟩
  | case3 => cases read
  | case4 pos s p n escape _ ih =>
      obtain ⟨v, inner⟩ := more_eq_ok read
      obtain ⟨q, split, plain⟩ := ih inner
      have mark : Plain ['\\'] := plain_singleton (by decide)
      refine ⟨'\\' :: (s.take n ++ q), ?_, mark.append ((plain_of_readEscape escape).append plain)⟩
      rw [List.cons_append, List.append_assoc, ← split, List.take_append_drop]
  | case5 => cases read
  | case6 pos x s _ _ visible ih =>
      obtain ⟨v, inner⟩ := more_eq_ok read
      obtain ⟨q, split, plain⟩ := ih inner
      refine ⟨x :: q, by rw [split]; rfl, fun y member => ?_⟩
      cases List.mem_cons.1 member with
      | inl here =>
          subst here
          refine ⟨?_, ?_, ?_⟩ <;>
            · rintro rfl
              exact visible (by decide)
      | inr later => exact plain y later

end

def Passes (c d : Cursor) : Prop := ∃ s, c.rest = s ++ d.rest ∧ Tokens s

namespace Passes
variable {c d e : Cursor} {x : Char}

theorem trans (first : Passes c d) (second : Passes d e) : Passes c e := by
  obtain ⟨s, split, tokens⟩ := first
  obtain ⟨t, split', tokens'⟩ := second
  exact ⟨s ++ t, by rw [split, split', List.append_assoc], tokens.append tokens'⟩

theorem space (c : Cursor) : Passes c (skipSpace c) := by
  refine ⟨c.rest.takeWhile isSpace, ?_, tokens_of_run fun x member => ?_⟩
  · rw [skipSpace, Cursor.skipWhile_rest, List.takeWhile_append_dropWhile]
  · have space := List.mem_takeWhile_imp member
    constructor
    · rintro rfl
      cases space
    · rintro rfl
      cases space

theorem mark {s : List Char} (starts : c.rest = x :: s) (noQuote : x ≠ '"')
    (noBackslash : x ≠ '\\') : Passes c (c.advance 1) := by
  refine ⟨[x], ?_, .character noQuote noBackslash .none⟩
  rw [Cursor.advance, starts]
  rfl

theorem run (atoms : Runs inAtom c d) : Passes c d := by
  obtain ⟨run, split, _, all⟩ := atoms
  refine ⟨run, split, tokens_of_run fun x member => ?_⟩
  have atom := all x member
  constructor
  · rintro rfl
    cases atom
  · rintro rfl
    cases atom

theorem string {s : List Char} {u : Text} {opening pos : Nat} (opens : c.rest = '"' :: s)
    (read : readString opening pos s = .ok (u, d)) : Passes c d := by
  obtain ⟨q, split, plain⟩ := plain_of_readString read
  obtain ⟨q', split', closing, _⟩ := readString_local ⟨d.pos, read⟩
  obtain rfl : q = q' := List.append_cancel_right (split.symm.trans split')
  refine ⟨'"' :: q, by rw [opens, split]; rfl, ?_⟩
  rw [← List.append_nil q]
  exact .string closing plain .none

end Passes

/-- Whether a reader passes whole tokens. -/
def ReadsTokens {α : Type} (read : Cursor → Read α) : Prop :=
  ∀ ⦃c d a⦄, read c = .ok (a, d) → Passes c d

section
variable {item : Cursor → Read Value}

theorem readItems_tokens (tokens : ReadsTokens item) : ReadsTokens (readItems item) := by
  intro c d vs read
  fun_induction readItems item c generalizing vs d with
  | case1 => cases read
  | case2 c v c₁ first c₂ s =>
      rename_i closed
      cases read
      exact ((tokens first).trans (.space c₁)).trans (.mark closed (by decide) (by decide))
  | case3 c v c₁ first c₂ s comma c₃ =>
      rename_i ih
      obtain ⟨⟨ws, c₄⟩, rest, same⟩ := map_eq_ok read
      cases same
      have part := ((tokens first).trans (.space c₁)).trans (.mark comma (by decide) (by decide))
      exact (part.trans (.space _)).trans (ih rest)
  | case4 => cases read
  | case5 => cases read

theorem readKey_tokens : ReadsTokens readKey := by
  intro c d key read
  rw [readKey] at read
  split at read
  · rename_i s opens
    split at read
    · cases read
    · rename_i key' c₁ found
      simp only at read
      split at read
      · rename_i colon
        cases read
        obtain ⟨w, split⟩ := List.head?_eq_some_iff.1 colon
        have name := (Passes.string opens found).trans (.space c₁)
        exact (name.trans (.mark split (by decide) (by decide))).trans (.space _)
      · cases read
  · cases read

theorem readMembers_tokens (tokens : ReadsTokens item) (before : Members) :
    ReadsTokens (readMembers item before) := by
  intro c d ms read
  fun_induction readMembers item before c with
  | case1 => cases read
  | case2 => cases read
  | case3 before c key c₁ first v c₂ second c₃ members s =>
      rename_i closed
      obtain ⟨_, rfl⟩ := Prod.mk.inj (Except.ok.inj read)
      have part := ((readKey_tokens first).trans (tokens second)).trans (.space c₂)
      exact part.trans (.mark closed (by decide) (by decide))
  | case4 before c key c₁ first v c₂ second c₃ members s comma c₄ shorter ih =>
      have part := ((readKey_tokens first).trans (tokens second)).trans (.space c₂)
      have next := (part.trans (.mark comma (by decide) (by decide))).trans (.space _)
      exact next.trans (ih read)
  | case5 => cases read
  | case6 => cases read

theorem readAtom_tokens : ReadsTokens readAtom := by
  intro c d v read
  rw [readAtom] at read
  split at read
  · rename_i word v' found
    cases read
    obtain ⟨listed, first⟩ := listed_of_find? found
    exact .run (.advance first (literals_inAtom listed).2)
  · exact .run (readNumber_runs read).1

theorem readInside_tokens {α : Type} {read : Cursor → Read α} (tokens : ReadsTokens read)
    (close : Char) (noQuote : close ≠ '"') (noBackslash : close ≠ '\\') (a : α) :
    ReadsTokens (readInside close a read) := by
  intro c d b found
  rw [readInside] at found
  split at found
  · rename_i closed
    cases found
    obtain ⟨s, split⟩ := List.head?_eq_some_iff.1 closed
    exact (Passes.space c).trans (.mark split noQuote noBackslash)
  · exact (Passes.space c).trans (tokens found)

theorem ReadsTokens.map {α β : Type} {read : Cursor → Read α} (tokens : ReadsTokens read)
    (f : α → β) : ReadsTokens fun c => (read c).map fun (a, d) => (f a, d) := by
  intro c d b found
  obtain ⟨⟨a, e⟩, inner, same⟩ := map_eq_ok found
  cases same
  exact tokens inner

theorem readOne_tokens {inner : Option (Cursor → Read Value)}
    (tokens : ∀ item ∈ inner, ReadsTokens item) : ReadsTokens (readOne inner) := by
  intro c d v read
  rw [readOne.eq_def] at read
  split at read
  · rename_i s opens
    obtain ⟨⟨u, e⟩, found, same⟩ := map_eq_ok read
    cases same
    exact .string opens found
  · rename_i s opens
    cases inner with
    | none => cases read
    | some item =>
        have items := (readItems_tokens (tokens item rfl)).map Value.array
        have list := readInside_tokens items ']' (by decide) (by decide) (.array [])
        exact (Passes.mark opens (by decide) (by decide)).trans (list read)
  · rename_i s opens
    cases inner with
    | none => cases read
    | some item =>
        have members := (readMembers_tokens (tokens item rfl) []).map Value.object
        have list := readInside_tokens members '\x7d' (by decide) (by decide) (.object [])
        exact (Passes.mark opens (by decide) (by decide)).trans (list read)
  · exact readAtom_tokens read

theorem readValue_tokens (levels : Nat) : ReadsTokens (readValue levels) := by
  induction levels with
  | zero =>
      change ReadsTokens (readOne none)
      exact readOne_tokens (by simp)
  | succ levels ih =>
      change ReadsTokens (readOne (some (readValue levels)))
      apply readOne_tokens
      intro item left
      cases left
      exact ih

end

/-- A message that can be decoded consists of whole tokens. -/
theorem tokens_of_decode {levels : Nat} {s : List Char} {v : Value}
    (decoded : decode levels s = .ok v) : Tokens s := by
  rw [decode] at decoded
  split at decoded
  · cases decoded
  · cases read : readValue levels (skipSpace (.start s)) with
    | error e =>
        rw [read] at decoded
        cases decoded
    | ok got =>
        obtain ⟨w, d⟩ := got
        rw [read] at decoded
        simp only [Bind.bind, Except.bind] at decoded
        split at decoded
        · rename_i ended
          obtain ⟨t, split, tokens⟩ := ((Passes.space (.start s)).trans
            (readValue_tokens levels read)).trans (.space d)
          rw [Cursor.atEnd, List.isEmpty_iff] at ended
          rw [ended, List.append_nil] at split
          rwa [show s = t from split]
        · cases decoded

end ChatPreview.Json

namespace ChatPreview.Message
open Text
open Json (Tokens Closing Thins)

section
variable {s t q r : List Char} {x : Char}

theorem afterBreak?_of_ink (plain : Plain r) (ink : ∃ y ∈ r, isBlank y = false) :
    afterBreak? (x :: (r ++ s)) = none := by
  cases found : afterBreak? (x :: (r ++ s)) with
  | none => rfl
  | some t =>
      obtain ⟨trail, split, trails⟩ := afterBreak?_eq_some.1 found
      obtain ⟨y, member, other⟩ := ink
      have trailing : y ∈ trail := by
        rcases List.append_eq_append_iff.1 (List.cons.inj split).2 with
          ⟨w, rfl, _⟩ | ⟨w, rfl, feed⟩
        · exact List.mem_append_left w member
        · cases w with
          | nil => rwa [List.append_nil] at member
          | cons z w =>
              obtain ⟨rfl, _⟩ := List.cons.inj feed
              exact absurd (by simp) plain.feed_not_mem
      rcases trails.mem trailing with blank | rfl
      · rw [other] at blank
        cases blank
      · exact absurd rfl (plain _ member).2.1

theorem getLast?_of_closing (closing : Closing q) : q.getLast? = some '"' := by
  induction closing with
  | quote => rfl
  | escape x rest ih => rw [List.getLast?_cons, List.getLast?_cons, ih]; rfl
  | character _ _ rest ih => rw [List.getLast?_cons, ih]; rfl

theorem dropBreaks_append (plain : Plain q) (quote : q.getLast? = some '"') (s : List Char) :
    dropBreaks (q ++ s) = q ++ dropBreaks s := by
  induction q with
  | nil => cases quote
  | cons x q ih =>
      have plain' : Plain q := plain.of_suffix (List.suffix_cons x q)
      cases q with
      | nil =>
          cases quote
          exact dropBreaks_cons rfl
      | cons y q =>
          have last : (y :: q).getLast? = some '"' := by rwa [List.getLast?_cons_cons] at quote
          have free : afterBreak? (x :: (y :: q ++ s)) = none :=
            afterBreak?_of_ink plain' ⟨'"', List.mem_of_getLast? last, rfl⟩
          calc
            dropBreaks (x :: (y :: q ++ s)) = x :: dropBreaks (y :: q ++ s) := dropBreaks_cons free
            _ = x :: (y :: q ++ dropBreaks s) := by rw [ih plain' last]

theorem dropBreaks_of_tokens (tokens : Tokens s) : dropBreaks s = s := by
  induction tokens with
  | none => exact dropBreaks_nil
  | @character x s _ noBackslash _ ih =>
      have free : afterBreak? (x :: s) = none := by
        cases found : afterBreak? (x :: s) with
        | none => rfl
        | some t =>
            obtain ⟨trail, split, _⟩ := afterBreak?_eq_some.1 found
            exact absurd (List.cons.inj split).1 noBackslash
      rw [dropBreaks_cons free, ih]
  | @string q s closing plain _ ih =>
      calc
        dropBreaks ('"' :: (q ++ s)) = '"' :: dropBreaks (q ++ s) := dropBreaks_cons rfl
        _ = '"' :: (q ++ s) := by rw [dropBreaks_append plain (getLast?_of_closing closing), ih]

theorem isSpace_of_isControl (control : isControl x) : Json.isSpace x := by
  simp only [isControl, Bool.or_eq_true, beq_iff_eq] at control
  rcases control with (rfl | rfl) | rfl <;> rfl

theorem thins_filter (tokens : Tokens s) : Thins s (s.filter (!isControl ·)) := by
  induction tokens with
  | none => exact .none
  | @character x s noQuote _ _ ih =>
      by_cases control : isControl x
      · rw [List.filter_cons_of_neg (by simp [control])]
        exact .drop (isSpace_of_isControl control) ih
      · rw [List.filter_cons_of_pos (by simp [control])]
        exact .keep noQuote ih
  | @string q s closing plain _ ih =>
      have kept : q.filter (!isControl ·) = q :=
        List.filter_eq_self.2 (not_isControl_of_plain plain)
      rw [List.filter_cons_of_pos rfl, List.filter_append, kept]
      exact .string closing ih

/-- To unescape the tokens of a message takes spaces from between them, and nothing else. -/
theorem thins_unescape (tokens : Tokens s) : Thins s (unescape s) := by
  rw [unescape, dropBreaks_of_tokens tokens]
  exact thins_filter tokens

end

/-- A message that can be decoded has the same value when it is unescaped first. -/
theorem decode_unescape {levels : Nat} {s : List Char} {v : Value}
    (decoded : Json.decode levels s = .ok v) : Json.decode levels (unescape s) = .ok v :=
  Json.decode_thins (thins_unescape (Json.tokens_of_decode decoded)) decoded

/-- Line ends and tabs stand between the tokens; in the string are an escaped backslash and an escaped
line feed. -/
theorem decode_unescape_lines :
    let s := "[\ttrue,\r\n\"a\\\\\\n\"\n]\r\n".toList
    let v : Value := .array [.boolean true, .string (Text.ofString "a\\\n")]
    unescape s = "[true,\"a\\\\\\n\"]".toList ∧ Json.decode 1 s = .ok v ∧
      Json.decode 1 (unescape s) = .ok v := by
  intro s v
  have decoded : Json.decode 1 s = .ok v := by
    unfold s v
    cbv
  exact ⟨by decide +kernel, decoded, decode_unescape decoded⟩

end ChatPreview.Message
