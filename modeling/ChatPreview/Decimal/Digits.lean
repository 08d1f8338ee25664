namespace ChatPreview

def maxDigits : Nat := 4300

structure DigitLimit where
  count : Nat
  deriving DecidableEq, Repr

def DigitLimit.message (e : DigitLimit) : String :=
  s!"Exceeds the limit ({maxDigits} digits) for integer string conversion: " ++
    s!"value has {e.count} digits; use sys.set_int_max_str_digits() to increase the limit"

def digitsValue (digits : List Char) : Nat :=
  digits.foldl (fun n d => 10 * n + (d.toNat - '0'.toNat)) 0

def readDigits (digits : List Char) : Except DigitLimit Nat :=
  if digits.length > maxDigits then .error ⟨digits.length⟩ else .ok (digitsValue digits)

end ChatPreview
