import ChatPreview.Decimal.Binary64
import ChatPreview.Toml.Item
import ChatPreview.Toml.Scan

namespace ChatPreview.Toml
open Text

def digitRun (p : Char → Bool) : List Char → List Char
  | '_' :: d :: s => if p d then '_' :: d :: digitRun p s else []
  | d :: s => if p d then d :: digitRun p s else []
  | [] => []

def digits (p : Char → Bool) (s : List Char) : List Char :=
  if s.head?.any p then digitRun p s else []

def baseOf? : List Char → Option (Nat × (Char → Bool))
  | '0' :: 'x' :: _ => some (16, fun d => (hexDigit? d).isSome)
  | '0' :: 'o' :: _ => some (8, fun d => '0' ≤ d && d ≤ '7')
  | '0' :: 'b' :: _ => some (2, fun d => d == '0' || d == '1')
  | _ => none

def valueIn (base : Nat) (written : List Char) : Nat :=
  (written.filterMap hexDigit?).foldl (fun n d => base * n + d) 0

def plainDigits (written : List Char) : List Char := written.filter (· != '_')

def signOf (s : List Char) : List Char := (s.take 1).filter fun x => x == '+' || x == '-'

def fractionOf : List Char → List Char
  | '.' :: s => digits Char.isDigit s
  | _ => []

def exponentOf? : List Char → Option (Nat × Int)
  | e :: s =>
    let sign := signOf s
    let written := digits Char.isDigit (s.drop sign.length)
    if (e = 'e' ∨ e = 'E') ∧ written ≠ [] then
      let n : Int := digitsValue (plainDigits written)
      some (1 + sign.length + written.length, if sign = ['-'] then -n else n)
    else none
  | [] => none

/-- A number in decimal digits; a zero at its start is all of its whole part. With a fraction or an
exponent it is not whole, and has as many digits as it likes. -/
def readDecimal? (c : Cursor) : Option (Read Item) :=
  let sign := signOf c.rest
  let unsigned := c.advance sign.length
  let whole :=
    if unsigned.rest.head? = some '0' then ['0'] else digits Char.isDigit unsigned.rest
  if whole.isEmpty then none
  else
    let c₁ := unsigned.advance whole.length
    let fraction := fractionOf c₁.rest
    let c₂ := if fraction.isEmpty then c₁ else c₁.advance (fraction.length + 1)
    let places := (plainDigits fraction).length
    let real (scale : Int) : Item :=
      .real (.ofDecimal (sign == ['-']) (digitsValue (plainDigits (whole ++ fraction)))
        (scale - places))
    some <| match exponentOf? c₂.rest with
      | some (length, scale) => .ok (real scale, c₂.advance length)
      | none =>
        if !fraction.isEmpty then .ok (real 0, c₂)
        else match readDigits (plainDigits whole) with
          | .error limit => .error (.halt (.digits limit))
          | .ok n => .ok (.integer (if sign = ['-'] then -n else n), c₂)

def readNumber? (c : Cursor) : Option (Read Item) :=
  match baseOf? c.rest with
  | none => readDecimal? c
  | some (base, isDigit) =>
    let written := digits isDigit (c.rest.drop 2)
    if written.isEmpty then readDecimal? c
    else some (.ok (.integer (valueIn base written), c.advance (2 + written.length)))

def wordNumbers : List (List Char × Binary64) :=
  [("inf".toList, .infinite false), ("+inf".toList, .infinite false),
   ("-inf".toList, .infinite true), ("nan".toList, .nan), ("+nan".toList, .nan),
   ("-nan".toList, .nan)]

/-! ## Dates and times -/

structure Date where
  year : Nat
  month : Nat
  day : Nat
  deriving DecidableEq, Repr

structure Clock where
  hour : Nat
  minute : Nat
  second : Nat
  micro : Nat
  deriving DecidableEq, Repr

def number? (places low high : Nat) (s : List Char) : Option (Nat × List Char) :=
  let digits := s.take places
  let n := digitsValue digits
  if digits.length = places ∧ digits.all Char.isDigit ∧ low ≤ n ∧ n ≤ high then
    some (n, s.drop places)
  else none

def mark? (x : Char) (s : List Char) : Option (List Char) :=
  if s.head? = some x then some (s.drop 1) else none

def date? (s : List Char) : Option (Date × List Char) := do
  let (year, s) ← number? 4 0 9999 s
  let (month, s) ← number? 2 1 12 (← mark? '-' s)
  let (day, s) ← number? 2 1 31 (← mark? '-' s)
  return (⟨year, month, day⟩, s)

def micros (written : List Char) : Nat :=
  digitsValue (written.take 6 ++ List.replicate (6 - written.length) '0')

def clock? (s : List Char) : Option (Clock × List Char) := do
  let (hour, s) ← number? 2 0 23 s
  let (minute, s) ← number? 2 0 59 (← mark? ':' s)
  let (second, s) ← number? 2 0 59 (← mark? ':' s)
  let written := match s with
    | '.' :: s => s.takeWhile Char.isDigit
    | _ => []
  let length := if written.isEmpty then 0 else written.length + 1
  return (⟨hour, minute, second, micros written⟩, s.drop length)

def offset? (s : List Char) : Option (Int × List Char) :=
  match s with
  | 'Z' :: s | 'z' :: s => some (0, s)
  | x :: s => do
    guard (x = '+' ∨ x = '-')
    let (hours, s) ← number? 2 0 23 s
    let (minutes, s) ← number? 2 0 59 (← mark? ':' s)
    let ahead : Int := 60 * hours + minutes
    return (if x = '-' then -ahead else ahead, s)
  | [] => none

def daysIn (year month : Nat) : Nat :=
  if month = 2 then
    if year % 4 = 0 ∧ (year % 100 ≠ 0 ∨ year % 400 = 0) then 29 else 28
  else if month = 4 ∨ month = 6 ∨ month = 9 ∨ month = 11 then 30
  else 31

def padded (places n : Nat) : String :=
  let digits := Nat.toDigits 10 n
  String.ofList (List.replicate (places - digits.length) '0' ++ digits)

def listed (parts : List String) : String := String.intercalate ", " parts

namespace Date

def isReal (d : Date) : Bool := 1 ≤ d.year && d.day ≤ daysIn d.year d.month

def text (d : Date) : String := s!"{padded 4 d.year}-{padded 2 d.month}-{padded 2 d.day}"

def fields (d : Date) : List String := [d.year, d.month, d.day].map toString

end Date

namespace Clock

def text (t : Clock) : String :=
  s!"{padded 2 t.hour}:{padded 2 t.minute}:{padded 2 t.second}" ++
    if t.micro = 0 then "" else s!".{padded 6 t.micro}"

def fields (t : Clock) : List String :=
  [toString t.hour, toString t.minute] ++
    (if t.micro ≠ 0 then [toString t.second, toString t.micro]
     else if t.second ≠ 0 then [toString t.second] else [])

end Clock

def offsetText (ahead : Int) : String :=
  (if ahead < 0 then "-" else "+") ++
    s!"{padded 2 (ahead.natAbs / 60)}:{padded 2 (ahead.natAbs % 60)}"

def offsetShown (ahead : Int) : String :=
  if ahead = 0 then "datetime.timezone.utc"
  else
    let seconds := 60 * ahead % 86400
    let parts := (if ahead < 0 then ["days=-1"] else []) ++ ["seconds=" ++ toString seconds]
    s!"datetime.timezone(datetime.timedelta({listed parts}))"

def moment (d : Date) (time : Option (Clock × Option Int)) : Item :=
  match time with
  | none => .other d.text s!"datetime.date({listed d.fields})"
  | some (t, none) =>
    .other s!"{d.text} {t.text}" s!"datetime.datetime({listed (d.fields ++ t.fields)})"
  | some (t, some ahead) =>
    let fields := d.fields ++ t.fields ++ ["tzinfo=" ++ offsetShown ahead]
    .other (s!"{d.text} {t.text}" ++ offsetText ahead) s!"datetime.datetime({listed fields})"

def time? (s : List Char) : Option ((Clock × Option Int) × List Char) := do
  guard (s.head? = some 'T' ∨ s.head? = some 't' ∨ s.head? = some ' ')
  let (t, s) ← clock? (s.drop 1)
  return match offset? s with
    | none => ((t, none), s)
    | some (ahead, s) => ((t, some ahead), s)

def readDate? (c : Cursor) : Option (Read Item) :=
  (date? c.rest).map fun (d, s) =>
    if !d.isReal then fault .moment c
    else match time? s with
      | none => .ok (moment d none, c.leave s)
      | some (t, s) => .ok (moment d (some t), c.leave s)

def readClock? (c : Cursor) : Option (Read Item) :=
  (clock? c.rest).map fun (t, s) =>
    .ok (.other t.text s!"datetime.time({listed t.fields})", c.leave s)

end ChatPreview.Toml
