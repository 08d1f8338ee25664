import ChatPreview.Halt
import ChatPreview.Scan.Basic
import ChatPreview.Text.Blank
import ChatPreview.Text.Hex

namespace ChatPreview.Toml
open Text

abbrev Key := List (List Char)

def Key.shown (key : Key) : String :=
  match key with
  | [part] => s!"({quotedChars part},)"
  | parts => "(" ++ String.intercalate ", " (parts.map quotedChars) ++ ")"

inductive Fault where
  | statement
  | afterStatement
  | keyStart
  | equals
  | value
  | moment
  | array
  | inlineTable
  | expected (mark : List Char)
  | unterminated
  | illegal (found : Char)
  | control (found : Char)
  | escape
  | hex
  | notScalar
  | tableEnd
  | arrayEnd
  | declaredTwice (key : Key)
  | redefined (key : Key)
  | immutable (key : Key)
  | duplicate (part : List Char)
  | overwritten
  deriving DecidableEq, Repr

def Fault.message : Fault → String
  | statement => "Invalid statement"
  | afterStatement => "Expected newline or end of document after a statement"
  | keyStart => "Invalid initial character for a key part"
  | equals => "Expected '=' after a key in a key/value pair"
  | value => "Invalid value"
  | moment => "Invalid date or datetime"
  | array => "Unclosed array"
  | inlineTable => "Unclosed inline table"
  | expected mark => s!"Expected {quotedChars mark}"
  | unterminated => "Unterminated string"
  | illegal c => s!"Illegal character {quotedChars [c]}"
  | control c => s!"Found invalid character {quotedChars [c]}"
  | escape => "Unescaped '\\' in a string"
  | hex => "Invalid hex value"
  | notScalar => "Escaped character is not a Unicode scalar value"
  | tableEnd => "Expected ']' at the end of a table declaration"
  | arrayEnd => "Expected ']]' at the end of an array declaration"
  | declaredTwice key => s!"Cannot declare {key.shown} twice"
  | redefined key => s!"Cannot redefine namespace {key.shown}"
  | immutable key => s!"Cannot mutate immutable namespace {key.shown}"
  | duplicate part => s!"Duplicate inline table key {quotedChars part}"
  | overwritten => "Cannot overwrite a value"

/-- What stops the reading: a fault and its offset, or what is no fault of the text. -/
inductive Stop where
  | fault (f : Fault) (offset : Nat)
  | halt (why : Halt)
  deriving DecidableEq, Repr

abbrev Read (α : Type) := Except Stop (α × Cursor)

def fault {α : Type} (f : Fault) (c : Cursor) : Except Stop α := .error (.fault f c.pos)

/-! ## White space and comments -/

def isControl (c : Char) : Bool := c != '\t' && (c.toNat ≤ 0x1f || c.toNat == 0x7f)

def isInnerControl (c : Char) : Bool := c != '\n' && isControl c

def isFiller (c : Char) : Bool := isBlank c || c == '\n'

def skipBlanks (c : Cursor) : Cursor := c.skipWhile isBlank

def skipComment (c : Cursor) : Except Stop Cursor :=
  if c.rest.head? = some '#' then
    let c' := c.skipWhile fun x => x != '\n' && !isControl x
    match c'.rest.head? with
    | none => .ok c'
    | some '\n' => .ok c'
    | some x => fault (.control x) c'
  else .ok c

def skipFiller (c : Cursor) : Except Stop Cursor :=
  let c₁ := c.skipWhile isFiller
  match skipComment c₁ with
  | .error e => .error e
  | .ok c₂ => if c₂.rest.length < c₁.rest.length then skipFiller c₂ else .ok c₂
termination_by c.rest.length
decreasing_by
  rename_i shorter
  exact Nat.lt_of_lt_of_le shorter (c.reaches_skipWhile _).length_le

/-! ## Strings -/

def readHex (places : Nat) (c : Cursor) : Read (List Char) :=
  let digits := c.rest.take places
  match hexValue? digits with
  | none => fault .hex c
  | some n =>
    if digits.length < places then fault .hex c
    else if n.isValidChar then .ok ([Char.ofNat n], c.advance places)
    else fault .notScalar (c.advance places)

def escaped? (c : Char) : Option Char :=
  if c = '"' ∨ c = '\\' then some c
  else if c = 'b' then some '\x08'
  else if c = 't' then some '\t'
  else if c = 'n' then some '\n'
  else if c = 'f' then some '\x0c'
  else if c = 'r' then some '\r'
  else none

def skipBreak (c : Cursor) : Except Stop Cursor :=
  let c₁ := skipBlanks c
  match c₁.rest with
  | [] => .ok c₁
  | '\n' :: _ => .ok (c₁.skipWhile isFiller)
  | _ => fault .escape c₁

/-- The text of an escape. In a text of several lines one may stand for none. -/
def readEscape (multiline : Bool) (c : Cursor) : Read (List Char) :=
  let after := c.advance 2
  match c.rest with
  | '\\' :: x :: _ =>
    if multiline ∧ isFiller x then (skipBreak (c.advance 1)).map fun c' => ([], c')
    else if x = 'u' then readHex 4 after
    else if x = 'U' then readHex 8 after
    else match escaped? x with
      | some y => .ok ([y], after)
      | none => fault .escape after
  | _ => fault .escape after

def readBasic (multiline : Bool) (c : Cursor) : Read (List Char) :=
  let closing := if multiline then ['"', '"', '"'] else ['"']
  match _h : c.rest with
  | [] => fault .unterminated c
  | x :: _ =>
    if closing.isPrefixOf c.rest then .ok ([], c.advance closing.length)
    else if x = '\\' then
      match readEscape multiline c with
      | .error e => .error e
      | .ok (t, c') =>
        if c'.rest.length < c.rest.length then
          (readBasic multiline c').map fun (s, c'') => (t ++ s, c'')
        else fault .escape c'
    else if (if multiline then isInnerControl x else isControl x) then fault (.illegal x) c
    else (readBasic multiline (c.advance 1)).map fun (s, c'') => (x :: s, c'')
termination_by c.rest.length
decreasing_by
  · assumption
  · simp only [Cursor.advance, _h, List.drop_succ_cons, List.drop_zero, List.length_cons]
    omega

def before? (mark : List Char) : List Char → Option (List Char)
  | [] => none
  | x :: s => if mark.isPrefixOf (x :: s) then some [] else (before? mark s).map (x :: ·)

def readLiteral (multiline : Bool) (c : Cursor) : Read (List Char) :=
  let closing := if multiline then ['\'', '\'', '\''] else ['\'']
  match before? closing c.rest with
  | none => fault (.expected closing) (c.advance c.rest.length)
  | some text =>
    let legal := text.takeWhile fun x => !(if multiline then isInnerControl x else isControl x)
    match text.drop legal.length with
    | [] => .ok (text, c.advance (text.length + closing.length))
    | x :: _ => fault (.control x) (c.advance legal.length)

/-- A text of several lines; up to two more quotes before the closing ones belong to it. -/
def readLines (quote : Char) (c : Cursor) : Except Stop (List Char × Cursor) := do
  let start := if c.rest.head? = some '\n' then c.advance 1 else c
  let (text, c₁) ← if quote = '"' then readBasic true start else readLiteral true start
  let extra := (c₁.rest.take 2).takeWhile (· == quote)
  return (text ++ extra, c₁.advance extra.length)

def readQuoted (quote : Char) (c : Cursor) : Read (List Char) :=
  if [quote, quote, quote].isPrefixOf c.rest then readLines quote (c.advance 3)
  else if quote = '"' then readBasic false (c.advance 1)
  else readLiteral false (c.advance 1)

/-! ## Keys -/

def isKeyChar (c : Char) : Bool := c.isAlphanum || c == '_' || c == '-'

def startsKey (c : Char) : Bool := isKeyChar c || c == '"' || c == '\''

def readKeyPart (c : Cursor) : Read (List Char) :=
  match c.rest.head? with
  | some '"' => readBasic false (c.advance 1)
  | some '\'' => readLiteral false (c.advance 1)
  | _ =>
    let part := c.rest.takeWhile isKeyChar
    if part.isEmpty then fault .keyStart c else .ok (part, c.advance part.length)

def readKey (c : Cursor) : Read Key :=
  match readKeyPart c with
  | .error e => .error e
  | .ok (part, c₁) =>
    let c₂ := skipBlanks c₁
    if c₂.rest.head? = some '.' then
      let c₃ := skipBlanks (c₂.advance 1)
      if c₃.rest.length < c.rest.length then
        (readKey c₃).map fun (key, c₄) => (part :: key, c₄)
      else fault .keyStart c₃
    else .ok ([part], c₂)
termination_by c.rest.length

end ChatPreview.Toml
