import ChatPreview.Decimal.Digits
import ChatPreview.Scan.Basic
import ChatPreview.Value.Basic
/-!
JSON text, with `NaN`, `Infinity` and `-Infinity` as numbers besides. Of members with one key the
last gives the value. The first fault from the left is the one reported.
-/
namespace ChatPreview.Json
open Text (hexValue?)

inductive Fault where
  | value
  | propertyName
  | colon
  | comma
  | extraData
  | unterminated
  | control
  | escape
  | unicodeEscape
  | byteOrderMark
  | tooDeep
  deriving DecidableEq, Repr

def Fault.message : Fault → String
  | value => "Expecting value"
  | propertyName => "Expecting property name enclosed in double quotes"
  | colon => "Expecting ':' delimiter"
  | comma => "Expecting ',' delimiter"
  | extraData => "Extra data"
  | unterminated => "Unterminated string starting at"
  | control => "Invalid control character at"
  | escape => "Invalid \\escape"
  | unicodeEscape => "Invalid \\uXXXX escape"
  | byteOrderMark => "Unexpected UTF-8 BOM (decode using utf-8-sig)"
  | tooDeep => "nesting too deep to decode"

inductive Error where
  | malformed (fault : Fault) (offset : Option Nat)
  | digits (limit : DigitLimit)
  deriving DecidableEq, Repr

abbrev Read (α : Type) := Except Error (α × Cursor)

def fault {α : Type} (f : Fault) (offset : Nat) : Except Error α := .error (.malformed f offset)

def isSpace (c : Char) : Bool := [' ', '\t', '\n', '\r'].contains c

def skipSpace (c : Cursor) : Cursor := c.skipWhile isSpace

def escaped? (c : Char) : Option Char :=
  if c = '"' ∨ c = '\\' ∨ c = '/' then some c
  else if c = 'b' then some '\x08'
  else if c = 'f' then some '\x0c'
  else if c = 'n' then some '\n'
  else if c = 'r' then some '\r'
  else if c = 't' then some '\t'
  else none

def more (p : CodePoint) (r : Read Text) : Read Text := r.map fun (t, c) => (p :: t, c)

def nextEscape? (s : List Char) : Option (List Char) :=
  if s.take 2 = ['\\', 'u'] ∧ 6 < s.length then some ((s.drop 2).take 4) else none

/-- The code point of a numeric escape from its digits on, and how long the escape is after its
backslash, which stands at `pos`. Its digits need a character after them; a high half takes a low
half that follows it. -/
def readNumeric (pos : Nat) (s : List Char) : Except Error (CodePoint × Nat) :=
  if s.length ≤ 4 then fault .unicodeEscape (pos + 1)
  else match hexValue? (s.take 4) with
    | none => fault .unicodeEscape (pos + 1)
    | some n =>
      if !CodePoint.isHigh n then .ok (.ofNat n, 5)
      else match nextEscape? (s.drop 4) with
        | none => .ok (.surrogate n, 5)
        | some digits =>
          match hexValue? digits with
          | none => fault .unicodeEscape (pos + 7)
          | some m => .ok (if CodePoint.isLow m then (.join n m, 11) else (.surrogate n, 5))

def readEscape (opening pos : Nat) : List Char → Except Error (CodePoint × Nat)
  | [] => fault .unterminated opening
  | c :: s =>
    if c = 'u' then readNumeric pos s
    else match escaped? c with
      | some c => .ok (.scalar c, 1)
      | none => fault .escape pos

def readString (opening pos : Nat) : List Char → Read Text
  | [] => fault .unterminated opening
  | c :: s =>
    if c = '"' then .ok ([], ⟨pos + 1, s⟩)
    else if c = '\\' then
      match readEscape opening pos s with
      | .error e => .error e
      | .ok (p, n) => more p (readString opening (pos + 1 + n) (s.drop n))
    else if c.toNat ≤ 0x1f then fault .control pos
    else more (.scalar c) (readString opening (pos + 1) s)
termination_by s => s.length
decreasing_by
  · simp only [List.length_drop, List.length_cons]
    omega
  · simp

def wholeDigits : List Char → List Char
  | '0' :: _ => ['0']
  | s => s.takeWhile Char.isDigit

def fractionDigits : List Char → List Char
  | '.' :: s => s.takeWhile Char.isDigit
  | _ => []

def exponent? : List Char → Option (Nat × Int)
  | e :: s =>
    if e = 'e' ∨ e = 'E' then
      let sign := s.take 1 |>.filter fun c => c == '+' || c == '-'
      let digits := (s.drop sign.length).takeWhile Char.isDigit
      if digits.isEmpty then none
      else
        let n : Int := digitsValue digits
        some (1 + sign.length + digits.length, if sign = ['-'] then -n else n)
    else none
  | [] => none

/-- A number; what cannot continue it is left. Without a fraction or an exponent it is whole. -/
def readNumber (c : Cursor) : Read Value :=
  let negative := c.rest.head? == some '-'
  let unsigned := if negative then c.advance 1 else c
  let whole := wholeDigits unsigned.rest
  if whole.isEmpty then fault .value c.pos
  else
    let c₁ := unsigned.advance whole.length
    let fraction := fractionDigits c₁.rest
    let c₂ := if fraction.isEmpty then c₁ else c₁.advance (fraction.length + 1)
    let exponent := exponent? c₂.rest
    let real (scale : Int) : Value :=
      .real (.ofDecimal negative (digitsValue (whole ++ fraction)) (scale - fraction.length))
    match exponent with
    | some (length, scale) => .ok (real scale, c₂.advance length)
    | none =>
      if !fraction.isEmpty then .ok (real 0, c₂)
      else match readDigits whole with
        | .ok n => .ok (.integer (if negative then -n else n), c₂)
        | .error e => .error (.digits e)

def literals : List (List Char × Value) :=
  [("null".toList, .null), ("true".toList, .boolean true), ("false".toList, .boolean false),
   ("NaN".toList, .real .nan), ("Infinity".toList, .real (.infinite false)),
   ("-Infinity".toList, .real (.infinite true))]

/-- The items of an array from the first one on, and its closing bracket. Reading an item never
lengthens the text ahead, so the comma makes it shorter. -/
def readItems (item : Cursor → Read Value) (c : Cursor) : Read (List Value) :=
  match item c with
  | .error e => .error e
  | .ok (v, c₁) =>
    let c₂ := skipSpace c₁
    match c₂.rest with
    | ']' :: _ => .ok ([v], c₂.advance 1)
    | ',' :: _ =>
      let c₃ := skipSpace (c₂.advance 1)
      if c₃.rest.length < c.rest.length then
        (readItems item c₃).map fun (vs, c₄) => (v :: vs, c₄)
      else fault .value c₃.pos
    | _ => fault .comma c₂.pos
termination_by c.rest.length

def readKey (c : Cursor) : Read Text :=
  match c.rest with
  | '"' :: s =>
    match readString c.pos (c.pos + 1) s with
    | .error e => .error e
    | .ok (key, c₁) =>
      let c₂ := skipSpace c₁
      if c₂.rest.head? = some ':' then .ok (key, skipSpace (c₂.advance 1)) else fault .colon c₂.pos
  | _ => fault .propertyName c.pos

def readMembers (item : Cursor → Read Value) (before : Members) (c : Cursor) : Read Members :=
  match readKey c with
  | .error e => .error e
  | .ok (key, c₁) =>
    match item c₁ with
    | .error e => .error e
    | .ok (v, c₂) =>
      let c₃ := skipSpace c₂
      let members := before.put key v
      match c₃.rest with
      | '\x7d' :: _ => .ok (members, c₃.advance 1)
      | ',' :: _ =>
        let c₄ := skipSpace (c₃.advance 1)
        if c₄.rest.length < c.rest.length then readMembers item members c₄
        else fault .value c₄.pos
      | _ => fault .comma c₃.pos
termination_by c.rest.length

def tooDeep {α : Type} : Except Error α := .error (.malformed .tooDeep none)

/-- A value at the cursor; `inner` reads those inside it, and is missing where no level of nesting
is left. -/
def readOne (inner : Option (Cursor → Read Value)) (c : Cursor) : Read Value :=
  match c.rest with
  | '"' :: s => (readString c.pos (c.pos + 1) s).map fun (t, c') => (.string t, c')
  | '[' :: _ =>
    match inner with
    | none => tooDeep
    | some item =>
      let c₁ := skipSpace (c.advance 1)
      if c₁.rest.head? = some ']' then .ok (.array [], c₁.advance 1)
      else (readItems item c₁).map fun (vs, c₂) => (.array vs, c₂)
  | '\x7b' :: _ =>
    match inner with
    | none => tooDeep
    | some item =>
      let c₁ := skipSpace (c.advance 1)
      if c₁.rest.head? = some '\x7d' then .ok (.object [], c₁.advance 1)
      else (readMembers item [] c₁).map fun (ms, c₂) => (.object ms, c₂)
  | _ =>
    match literals.find? (·.1.isPrefixOf c.rest) with
    | some (word, v) => .ok (v, c.advance word.length)
    | none => readNumber c

def readValue : Nat → Cursor → Read Value
  | 0, c => readOne none c
  | levels + 1, c => readOne (some (readValue levels)) c

/-- The value of a text; it may be nested so many levels deep. -/
def decode (levels : Nat) (text : List Char) : Except Error Value :=
  if text.head? = some '\uFEFF' then fault .byteOrderMark 0
  else do
    let (v, c) ← readValue levels (skipSpace (.start text))
    let c := skipSpace c
    if c.atEnd then .ok v else fault .extraData c.pos

end ChatPreview.Json
