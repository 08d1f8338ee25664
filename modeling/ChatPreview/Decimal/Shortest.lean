import ChatPreview.Decimal.Binary64
/-!
The shortest decimal that reads back as a binary number: the fewest digits whose value rounds to
it, and of those the nearest.
-/
namespace ChatPreview.Binary64

/-- A positive number `value / den` and the ends `low / den` and `high / den` of what rounds to it,
which belong to it when `closed`. -/
structure Interval where
  value : Nat
  low : Nat
  high : Nat
  den : Nat
  closed : Bool

def interval (significand : Nat) (exponent : Int) : Interval :=
  let e := exponent - 2
  let scale := pow 2 e
  let low := if significand = fullPrecision ∧ exponent > -1074 then 1 else 2
  { value := 4 * significand * scale, low := (4 * significand - low) * scale,
    high := (4 * significand + 2) * scale, den := pow 2 (-e), closed := significand % 2 == 0 }

namespace Interval

def magnitude (i : Interval) : Int :=
  if i.value ≥ i.den then (Nat.toDigits 10 (i.value / i.den)).length
  else 1 - ((List.range 400).find? fun (j : Nat) => i.value * pow 10 j ≥ i.den).getD 0

def has (i : Interval) (n : Nat) (e : Int) : Bool :=
  let x := n * pow 10 e * i.den
  let unit := pow 10 (-e)
  if i.closed then i.low * unit ≤ x && x ≤ i.high * unit else i.low * unit < x && x < i.high * unit

/-- The better of the two neighbours of the value among the multiples of `10 ^ e`. -/
def nearest? (i : Interval) (e : Int) : Option Nat :=
  let num := i.value * pow 10 (-e)
  let den := i.den * pow 10 e
  let below := num / den
  let twice := 2 * (num % den)
  let upFirst := twice > den || (twice == den && below % 2 == 1)
  let order := if upFirst then [below + 1, below] else [below, below + 1]
  order.find? (i.has · e)

def shortest (i : Interval) : Nat × Int :=
  let grids := (List.range 17).map fun (k : Nat) => i.magnitude - (k + 1)
  (grids.findSome? fun e => (i.nearest? e).map (·, e)).getD (0, 0)

end Interval

def dropZeros : List Char → List Char := fun s => (s.reverse.dropWhile (· == '0')).reverse

/-- Positional from ten to the power -4 up to the power 16, and otherwise with an exponent of two
digits or more; a whole number keeps one zero after the point. -/
def layout (digits : List Char) (point : Int) : List Char :=
  if -4 < point ∧ point ≤ 16 then
    if point ≤ 0 then '0' :: '.' :: List.replicate (-point).toNat '0' ++ digits
    else
      let whole := digits.take point.toNat
      let part := digits.drop point.toNat
      whole ++ List.replicate (point.toNat - whole.length) '0' ++ '.' ::
        (if part.isEmpty then ['0'] else part)
  else
    let part := digits.drop 1
    let e := point - 1
    let places := Nat.toDigits 10 e.natAbs
    digits.take 1 ++ (if part.isEmpty then [] else '.' :: part) ++
      'e' :: (if e < 0 then '-' else '+') ::
      (List.replicate (2 - places.length) '0' ++ places)

def text : Binary64 → String
  | nan => "nan"
  | infinite negative => if negative then "-inf" else "inf"
  | finite negative significand exponent =>
    let sign := if negative then ['-'] else []
    if significand = 0 then String.ofList (sign ++ ['0', '.', '0'])
    else
      let (n, e) := (interval significand exponent).shortest
      let digits := Nat.toDigits 10 n
      String.ofList (sign ++ layout (dropZeros digits) (digits.length + e))

end ChatPreview.Binary64
