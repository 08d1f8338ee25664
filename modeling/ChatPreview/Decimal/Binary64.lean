/-!
Binary floating point of 64 bits, as exact integers.
-/
namespace ChatPreview

/-- A finite number is `significand * 2 ^ exponent`, with a significand below `2 ^ 53` and an
exponent from -1074 to 971. -/
inductive Binary64 where
  | nan
  | infinite (negative : Bool)
  | finite (negative : Bool) (significand : Nat) (exponent : Int)
  deriving DecidableEq, Repr, Inhabited

namespace Binary64

def pow (base : Nat) (e : Int) : Nat := Nat.pow base e.toNat

def fullPrecision : Nat := 0x10000000000000

def roundQuotient (num den : Nat) : Nat :=
  let q := num / den
  let twice := 2 * (num % den)
  if twice > den || (twice == den && q % 2 == 1) then q + 1 else q

def ofQuotient (negative : Bool) (num den : Nat) : Binary64 :=
  let size : Int := (num.log2 : Int) - den.log2
  let guess := max (size - 53) (-1074)
  let fits (e : Int) := roundQuotient (num * pow 2 (-e)) (den * pow 2 e) < 2 * fullPrecision
  let e := if fits guess then guess else if fits (guess + 1) then guess + 1 else guess + 2
  if e > 971 then infinite negative
  else finite negative (roundQuotient (num * pow 2 (-e)) (den * pow 2 e)) e

/-- The nearest number to `digits * 10 ^ exponent`. Beyond 310 places either way of what can be
held, the size alone decides. -/
def ofDecimal (negative : Bool) (digits : Nat) (exponent : Int) : Binary64 :=
  let places := (Nat.toDigits 10 digits).length + exponent
  if digits = 0 ∨ places < -330 then finite negative 0 (-1074)
  else if places > 310 then infinite negative
  else ofQuotient negative (digits * pow 10 exponent) (pow 10 (-exponent))

end Binary64
end ChatPreview
