import ChatPreview.Text.Quoted
/-!
Scanning text from left to right. A scanner reads at a cursor and answers a value, or the cause of
its failure, with the cursor where it left off.
-/
namespace ChatPreview
open Text

/-- An offset into a source and the text from there on. -/
structure Cursor where
  pos : Nat
  rest : List Char
  deriving DecidableEq, Repr

namespace Cursor

def start (source : List Char) : Cursor := ⟨0, source⟩
def seek (source : List Char) (pos : Nat) : Cursor := ⟨pos, source.drop pos⟩

def atEnd (c : Cursor) : Bool := c.rest.isEmpty
def peek (c : Cursor) : List Char := c.rest.take 1
def advance (c : Cursor) (n : Nat) : Cursor := ⟨c.pos + n, c.rest.drop n⟩
def skipWhile (p : Char → Bool) (c : Cursor) : Cursor := c.advance (c.rest.takeWhile p).length
def leave (c : Cursor) (rest : List Char) : Cursor := ⟨c.pos + (c.rest.length - rest.length), rest⟩
def upTo (c stop : Cursor) : List Char := c.rest.take (stop.pos - c.pos)

/-- Whether a cursor stands in the same text, further on or at the same place. -/
def Reaches (c d : Cursor) : Prop := ∃ read, c.rest = read ++ d.rest ∧ d.pos = c.pos + read.length

namespace Reaches
variable {c d e : Cursor}

theorem refl (c : Cursor) : c.Reaches c := ⟨[], rfl, rfl⟩

theorem trans (first : c.Reaches d) (second : d.Reaches e) : c.Reaches e := by
  obtain ⟨r, rest₁, pos₁⟩ := first
  obtain ⟨t, rest₂, pos₂⟩ := second
  exact ⟨r ++ t, by rw [rest₁, rest₂, List.append_assoc], by rw [List.length_append]; omega⟩

theorem suffix (ahead : c.Reaches d) : d.rest <:+ c.rest := by
  obtain ⟨read, split, _⟩ := ahead
  exact ⟨read, split.symm⟩

theorem length_add (ahead : c.Reaches d) : c.pos + c.rest.length = d.pos + d.rest.length := by
  obtain ⟨read, rest, pos⟩ := ahead
  rw [rest, pos, List.length_append]
  omega

theorem pos_le (ahead : c.Reaches d) : c.pos ≤ d.pos := by
  obtain ⟨read, _, pos⟩ := ahead
  omega

theorem length_le (ahead : c.Reaches d) : d.rest.length ≤ c.rest.length := by
  have := ahead.length_add
  have := ahead.pos_le
  omega

/-- The text between two cursors is what was read from one to the other. -/
theorem upTo_append (ahead : c.Reaches d) : c.upTo d ++ d.rest = c.rest := by
  obtain ⟨read, rest, pos⟩ := ahead
  have distance : d.pos - c.pos = read.length := by omega
  rw [upTo, distance, rest, List.take_left]

theorem upTo_eq (ahead : c.Reaches d) {read : List Char} (split : c.rest = read ++ d.rest) :
    c.upTo d = read := by
  have whole := ahead.upTo_append
  rw [split] at whole
  exact List.append_cancel_right whole

theorem eq_of_rest_eq (first : c.Reaches d) (second : c.Reaches e) (same : d.rest = e.rest) :
    d = e := by
  have h := first.length_add
  rw [second.length_add, same] at h
  cases d
  cases e
  simp_all

theorem eq_seek {source : List Char} {pos : Nat} (ahead : (seek source pos).Reaches d) :
    d = seek source d.pos := by
  obtain ⟨read, split, moved⟩ := ahead
  change source.drop pos = read ++ d.rest at split
  change d.pos = pos + read.length at moved
  rw [seek, moved, ← List.drop_drop, split, List.drop_left, ← moved]

end Reaches

theorem advance_advance (c : Cursor) (m n : Nat) : (c.advance m).advance n = c.advance (m + n) := by
  simp [advance, Nat.add_assoc]

theorem peek_of_nil {c : Cursor} (line : c.rest = []) : c.peek = [] := by
  rw [peek, line]
  rfl

theorem peek_of_cons {c : Cursor} {x : Char} {s : List Char} (line : c.rest = x :: s) :
    c.peek = [x] := by
  rw [peek, line]
  rfl

theorem advance_of_cons {c : Cursor} {x : Char} {s : List Char} (line : c.rest = x :: s) :
    (c.advance 1).rest = s := by
  rw [advance, line]
  rfl

theorem upTo_advance (c : Cursor) (n : Nat) : c.upTo (c.advance n) = c.rest.take n := by
  rw [upTo, advance, Nat.add_sub_cancel_left]

theorem length_seek (source : List Char) (pos : Nat) :
    (seek source pos).rest.length = source.length - pos := List.length_drop

theorem reaches_advance {c : Cursor} {n : Nat} (inside : n ≤ c.rest.length) :
    c.Reaches (c.advance n) :=
  ⟨c.rest.take n, by simp [advance], by simp [advance, Nat.min_eq_left inside]⟩

theorem reaches_skipWhile (p : Char → Bool) (c : Cursor) : c.Reaches (c.skipWhile p) :=
  reaches_advance (c.rest.takeWhile_prefix p).length_le

theorem reaches_leave {c : Cursor} {rest : List Char} (tail : rest <:+ c.rest) :
    c.Reaches (c.leave rest) := by
  obtain ⟨read, split⟩ := tail
  refine ⟨read, split.symm, ?_⟩
  simp only [leave, ← split, List.length_append]
  omega

@[simp] theorem skipWhile_rest (p : Char → Bool) (c : Cursor) :
    (c.skipWhile p).rest = c.rest.dropWhile p := by
  have split := List.takeWhile_append_dropWhile (p := p) (l := c.rest)
  calc
    c.rest.drop (c.rest.takeWhile p).length =
        (c.rest.takeWhile p ++ c.rest.dropWhile p).drop (c.rest.takeWhile p).length := by rw [split]
    _ = c.rest.dropWhile p := List.drop_left

end Cursor

inductive Cause where
  | expected (text found : List Char)
  | expectedOneOf (choices : List (List Char)) (found : List Char)
  | expectedIn (classText : String) (found : List Char)
  | tooFew (least : Nat) (classText : String) (count : Nat)
  | noAlternative
  | unterminated
  | expectedWord (found : List Char)
  | afterSelector
  | tooDeep (limit : Int)
  | unexpected (found : List Char)
  | custom (message : String)
  deriving DecidableEq, Repr

def Cause.message : Cause → String
  | expected text found => s!"expected {quotedChars text}, got {quotedChars found}"
  | expectedOneOf choices found =>
    let options := String.intercalate ", " (choices.map quotedChars)
    s!"expected one of {options}, got {quotedChars found}"
  | expectedIn classText found => s!"expected {classText}, got {quotedChars found}"
  | tooFew least classText count => s!"expected at least {least} of {classText}, got {count}"
  | noAlternative => "no alternative matched"
  | unterminated => "unterminated string"
  | expectedWord found => s!"expected a word, got {quotedChars found}"
  | afterSelector => "unexpected character after selector"
  | tooDeep limit => s!"nesting depth limit ({limit}) exceeded"
  | unexpected found => s!"unexpected {quotedChars found}"
  | custom message => message

def messageAt (message : String) (offset : Int) : String := s!"{message} (at offset {offset})"

structure Failure where
  cause : Cause
  offset : Int
  deriving DecidableEq, Repr

namespace Failure

def message (f : Failure) : String := f.cause.message
def text (f : Failure) : String := messageAt f.message f.offset

end Failure

inductive Outcome (α : Type) where
  | ok (value : α) (next : Cursor)
  | fail (failure : Failure) (next : Cursor)
  deriving Repr

def Scan (α : Type) : Type := Cursor → Outcome α

namespace Scan

instance : Monad Scan where
  pure a := fun c => .ok a c
  bind s f := fun c =>
    match s c with
    | .ok a c' => f a c'
    | .fail e c' => .fail e c'

def fail {α : Type} (cause : Cause) : Scan α := fun c => .fail ⟨cause, c.pos⟩ c
def failAt {α : Type} (cause : Cause) (offset : Int) : Scan α := fun c => .fail ⟨cause, offset⟩ c

variable {α β : Type} {s : Scan α} {f : α → Scan β}

theorem pure_apply (a : α) (c : Cursor) : (pure a : Scan α) c = .ok a c := rfl

theorem bind_apply (c : Cursor) : (s >>= f) c =
    match s c with
    | .ok a c' => f a c'
    | .fail e c' => .fail e c' := rfl

theorem bind_eq_ok {b : β} {c c' : Cursor} :
    (s >>= f) c = .ok b c' ↔ ∃ a c₁, s c = .ok a c₁ ∧ f a c₁ = .ok b c' := by
  rw [bind_apply]
  cases s c with
  | ok a c₁ => exact ⟨fun h => ⟨a, c₁, rfl, h⟩, by rintro ⟨_, _, h, h'⟩; cases h; exact h'⟩
  | fail e c₁ => simp

def Forward (s : Scan α) : Prop := ∀ ⦃c a d⦄, s c = .ok a d → c.Reaches d

def Consumes (s : Scan α) : Prop := ∀ ⦃c a d⦄, s c = .ok a d → c.Reaches d ∧ c.pos < d.pos

def Restores (s : Scan α) : Prop := ∀ ⦃c e d⦄, s c = .fail e d → d = c

theorem Consumes.forward (h : Consumes s) : Forward s := fun _ _ _ read => (h read).1

theorem forward_pure (a : α) : Forward (pure a : Scan α) := by
  intro c b d read
  cases read
  exact .refl c

theorem forward_fail (cause : Cause) : Forward (fail cause : Scan α) := by
  intro c a d read
  cases read

theorem restores_fail (cause : Cause) : Restores (fail cause : Scan α) := by
  intro c e d failed
  cases failed
  rfl

theorem restores_failAt (cause : Cause) (offset : Int) :
    Restores (failAt cause offset : Scan α) := by
  intro c e d failed
  cases failed
  rfl

theorem restores_of_ok (reads : ∀ c, ∃ a d, s c = .ok a d) : Restores s := by
  intro c e d failed
  obtain ⟨a, d', read⟩ := reads c
  rw [read] at failed
  cases failed

theorem forward_bind (first : Forward s) (next : ∀ a, Forward (f a)) : Forward (s >>= f) := by
  intro c b d read
  obtain ⟨a, c₁, h₁, h₂⟩ := bind_eq_ok.1 read
  exact (first h₁).trans (next a h₂)

theorem consumes_bind (first : Consumes s) (next : ∀ a, Forward (f a)) : Consumes (s >>= f) := by
  intro c b d read
  obtain ⟨a, c₁, h₁, h₂⟩ := bind_eq_ok.1 read
  have ahead := next a h₂
  exact ⟨(first h₁).1.trans ahead, Nat.lt_of_lt_of_le (first h₁).2 ahead.pos_le⟩

end Scan
end ChatPreview
